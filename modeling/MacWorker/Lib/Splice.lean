import Mathlib.Data.List.Infix

/-! # Replacing parts of a text

A text is scanned from the left. Where a recogniser finds something, what it found is
skipped and a replacement is written; everything else is copied. The recogniser sees the
text before the place, last first, and the text from there on.

A text with replacements of one kind is a list of runs with the replacement between them.
Replacing a word by another and back again returns to the text when the word stands only
where it was put, and two words can be replaced one after the other when neither overlaps
the other. -/
namespace Splice
open List
variable {α : Type}

/-- The length of what was found at a place, and what is written for it. -/
abbrev Hit (α : Type) := List α → List α → Option (Nat × List α)

/-- The text before, last first; how much of the rest is still skipped; the rest. -/
def splice (hit : Hit α) : List α → Nat → List α → List α
  | _, _, [] => []
  | before, skip + 1, b :: rest => splice hit (b :: before) skip rest
  | before, 0, b :: rest =>
    match hit before (b :: rest) with
    | some (length, new) => new ++ splice hit (b :: before) (length - 1) rest
    | none => b :: splice hit (b :: before) 0 rest

theorem word_eq_found {word found rest : List α} (h : word <+: found ++ rest)
    (hl : word.length = found.length) : word = found :=
  (prefix_of_prefix_length_le h (prefix_append _ _) hl.le).eq_of_length hl

@[simp] theorem splice_nil (hit : Hit α) (before : List α) (skip : Nat) :
    splice hit before skip [] = [] := by
  cases skip <;> rfl

theorem splice_skip (hit : Hit α) (before : List α) (skip : Nat) (rest : List α) :
    splice hit before skip rest =
      splice hit ((rest.take skip).reverse ++ before) 0 (rest.drop skip) := by
  induction rest generalizing before skip with
  | nil => simp
  | cons b rest ih =>
    cases skip with
    | zero => rfl
    | succ skip =>
      change splice hit (b :: before) skip rest = _
      rw [ih]
      simp

variable {length : List α → List α → Option Nat} {hit : Hit α}

theorem splice_hit {before found rest new}
    (h : hit before (found ++ rest) = some (found.length, new)) (hf : found ≠ []) :
    splice hit before 0 (found ++ rest) = new ++ splice hit (found.reverse ++ before) 0 rest := by
  cases found with
  | nil => exact absurd rfl hf
  | cons b found =>
    rw [cons_append] at h ⊢
    rw [splice, h]
    change new ++ splice hit (b :: before) found.length (found ++ rest) = _
    rw [splice_skip]
    simp

theorem splice_miss {before rest b} (h : hit before (b :: rest) = none) :
    splice hit before 0 (b :: rest) = b :: splice hit (b :: before) 0 rest := by
  rw [splice, h]

/-- Where nothing is found in a stretch of text, it is copied. -/
theorem splice_misses {stretch before rest}
    (h : ∀ u v, stretch = u ++ v → v ≠ [] → hit (u.reverse ++ before) (v ++ rest) = none) :
    splice hit before 0 (stretch ++ rest) =
      stretch ++ splice hit (stretch.reverse ++ before) 0 rest := by
  induction stretch generalizing before with
  | nil => rfl
  | cons b stretch ih =>
    have hh : hit before (b :: (stretch ++ rest)) = none :=
      h [] (b :: stretch) rfl (cons_ne_nil _ _)
    rw [cons_append, splice_miss hh, ih]
    · simp
    · intro u v huv hv
      have hn := h (b :: u) v (by rw [huv]; rfl) hv
      simpa using hn

/-- In a text, a recogniser finds as much as it says, and never nothing. -/
def SoundOn (hit : Hit α) (text : List α) : Prop :=
  ∀ before rest length new, before.reverse ++ rest = text → hit before rest = some (length, new) →
    0 < length ∧ length ≤ rest.length

def Sound (hit : Hit α) : Prop := ∀ text, SoundOn hit text

theorem SoundOn.split {text before rest new length} (h : SoundOn hit text)
    (ht : before.reverse ++ rest = text) (hh : hit before rest = some (length, new)) :
    ∃ found rest', found ≠ [] ∧ rest = found ++ rest' ∧ found.length = length := by
  obtain ⟨hp, hle⟩ := h _ _ _ _ ht hh
  have hl : (rest.take length).length = length := length_take_of_le hle
  refine ⟨rest.take length, rest.drop length, ?_, (take_append_drop _ _).symm, hl⟩
  refine ne_nil_of_length_pos ?_
  rw [hl]
  exact hp

theorem length_le_of_split {b : α} {front rest x : List α} (hf : front ≠ [])
    (h : b :: rest = front ++ x) : x.length ≤ rest.length := by
  have := length_pos_iff.mpr hf
  have := congrArg length h
  simp only [length_append, length_cons] at this
  omega

/-- **Induction along the scan of a text**: the rest is empty, begins with something that
was found, or with something that is copied. -/
theorem scan_induction_on {text : List α} (hs : SoundOn hit text) {P : List α → List α → Prop}
    (nil : ∀ before, P before [])
    (found : ∀ before found rest new, found ≠ [] → before.reverse ++ (found ++ rest) = text →
      hit before (found ++ rest) = some (found.length, new) →
      P (found.reverse ++ before) rest → P before (found ++ rest))
    (copied : ∀ before b rest, before.reverse ++ b :: rest = text →
      hit before (b :: rest) = none → P (b :: before) rest → P before (b :: rest)) :
    ∀ before rest, before.reverse ++ rest = text → P before rest
  | before, [], _ => nil before
  | before, b :: rest, ht => by
    cases hh : hit before (b :: rest) with
    | none =>
      exact copied before b rest ht hh
        (scan_induction_on hs nil found copied _ rest (by simpa using ht))
    | some answer =>
      obtain ⟨length, new⟩ := answer
      obtain ⟨front, rest', hf, hsp, hl⟩ := hs.split ht hh
      have := length_le_of_split hf hsp
      rw [hsp] at hh ht ⊢
      exact found before front rest' new hf ht (hl ▸ hh)
        (scan_induction_on hs nil found copied _ rest' (by simpa using ht))
termination_by _ rest => rest.length

theorem scan_induction (hs : Sound hit) {P : List α → List α → Prop} (nil : ∀ before, P before [])
    (found : ∀ before found rest new, found ≠ [] →
      hit before (found ++ rest) = some (found.length, new) →
      P (found.reverse ++ before) rest → P before (found ++ rest))
    (copied : ∀ before b rest, hit before (b :: rest) = none → P (b :: before) rest →
      P before (b :: rest))
    (before rest : List α) : P before rest :=
  scan_induction_on (hs _) nil (fun before front rest new hne _ => found before front rest new hne)
    (fun before b rest _ => copied before b rest) before rest rfl

theorem splice_self (hs : Sound hit)
    (h : ∀ before found rest new, hit before (found ++ rest) = some (found.length, new) →
      new = found)
    (before rest : List α) : splice hit before 0 rest = rest := by
  induction before, rest using scan_induction hs with
  | nil => exact splice_nil _ _ _
  | found before found rest new hf hh ih =>
    rw [splice_hit hh hf, ih, h _ _ _ _ hh]
  | copied before b rest hh ih => rw [splice_miss hh, ih]

/-! ## Replacements of one kind -/

/-- Write the same thing for everything that is found. -/
def fixed (length : List α → List α → Option Nat) (new : List α) : Hit α := fun before rest =>
  (length before rest).map fun n => (n, new)

theorem fixed_eq_none {new before rest} :
    fixed length new before rest = none ↔ length before rest = none := by
  simp [fixed]

theorem fixed_eq_some {new other before rest n} : fixed length new before rest = some (n, other) ↔
      length before rest = some n ∧ other = new := by
  simp only [fixed, Option.map_eq_some_iff, Prod.mk.injEq]
  constructor
  · rintro ⟨m, hm, rfl, rfl⟩
    exact ⟨hm, rfl⟩
  · rintro ⟨hm, rfl⟩
    exact ⟨n, hm, rfl, rfl⟩

/-- The runs of text between what is found: the same ones whatever is written. -/
theorem exists_runs (hso : ∀ new, Sound (fixed length new)) (before rest : List α) :
    ∃ run runs, run <+: rest ∧ (∀ x ∈ runs, x <:+: rest) ∧
      ∀ new, splice (fixed length new) before 0 rest = new.intercalate (run :: runs) := by
  induction before, rest using scan_induction (hso []) with
  | nil before =>
    refine ⟨[], [], prefix_rfl, nofun, fun new => ?_⟩
    rw [splice_nil, intercalate_singleton]
  | found before found rest other hf hh ih =>
    obtain ⟨run, runs, hru, hr, hs⟩ := ih
    have hre : rest <:+: found ++ rest := (suffix_append _ _).isInfix
    refine ⟨[], run :: runs, nil_prefix, ?_, fun new => ?_⟩
    · intro x hx
      rcases mem_cons.mp hx with rfl | hx
      · exact hru.isInfix.trans hre
      · exact (hr x hx).trans hre
    · have hfi : fixed length new before (found ++ rest) = some (found.length, new) :=
        fixed_eq_some.mpr ⟨(fixed_eq_some.mp hh).1, rfl⟩
      rw [splice_hit hfi hf, hs new, intercalate_cons_cons, nil_append]
  | copied before b rest hh ih =>
    obtain ⟨run, runs, hru, hr, hs⟩ := ih
    refine ⟨b :: run, runs, cons_prefix_cons.mpr ⟨rfl, hru⟩, fun x hx => ?_, fun new => ?_⟩
    · exact (hr x hx).trans (suffix_cons _ _).isInfix
    · have hm : fixed length new before (b :: rest) = none :=
        fixed_eq_none.mpr (fixed_eq_none.mp hh)
      rw [splice_miss hm, hs new]
      cases runs with
      | nil => rw [intercalate_singleton, intercalate_singleton]
      | cons next runs => simp only [intercalate_cons_cons, cons_append]

/-! ## Replacing a word -/

section
variable {word : List α}

/-- After these runs the word begins where it was put, and not before. -/
def Late (word run : List α) : Prop := ∀ v, v ≠ [] → v <:+ run → ¬ word <+: v ++ word

theorem Late.ending {run run'} (h : Late word run) (hs : run' <:+ run) : Late word run' :=
  fun v hv hsu => h v hv (hsu.trans hs)

theorem Late.tail {b run} (h : Late word (b :: run)) : Late word run := h.ending (suffix_cons _ _)

theorem Late.not_prefix {b run} (h : Late word (b :: run)) (rest : List α) :
    ¬ word <+: b :: (run ++ (word ++ rest)) := by
  intro hs
  refine h (b :: run) (cons_ne_nil _ _) suffix_rfl ?_
  rw [← cons_append, ← append_assoc] at hs
  refine prefix_of_prefix_length_le hs (prefix_append _ _) ?_
  rw [length_append]
  omega

/-- Whatever stands around `put`, the word does not overlap it. -/
structure Clear (word put : List α) : Prop where
  into : ∀ x y, word <+: x ++ (put ++ y) → word <+: x
  out : ∀ v y, v ≠ [] → v <:+ put → ¬ word <+: v ++ y

theorem prefix_of_head {put x y c} (hp : put.head? = some c) (hc : c ∉ word)
    (h : word <+: x ++ (put ++ y)) : word <+: x := by
  rcases prefix_or_prefix_of_prefix h (prefix_append x (put ++ y)) with hin | hou
  · exact hin
  · obtain ⟨tail, rfl⟩ := hou
    have ht := (prefix_append_right_inj _).mp h
    cases tail with
    | nil => simp
    | cons d tail =>
      cases put with
      | nil => cases hp
      | cons e put =>
        cases hp
        obtain ⟨rfl, -⟩ := cons_prefix_cons.mp ht
        simp at hc

variable {put : List α}

theorem clear_of_heads {c d} (hp : put.head? = some c) (hc : c ∉ word) (hw : word.head? = some d)
    (hd : d ∉ put) : Clear word put where
  into _ _ h := prefix_of_head hp hc h
  out v y hv hs hst := by
    cases word with
    | nil => cases hw
    | cons e word =>
      cases hw
      cases v with
      | nil => exact hv rfl
      | cons f v =>
        obtain ⟨rfl, -⟩ := cons_prefix_cons.mp hst
        exact hd (hs.subset mem_cons_self)

/-- A word that is clear of the replacements and begins a text with replacements begins
the text without them. -/
theorem splice_prefix {length new} (hso : Sound (fixed length new)) (h : Clear word new)
    {before rest} (hst : word <+: splice (fixed length new) before 0 rest) :
    ∃ rest', rest = word ++ rest' ∧ splice (fixed length new) before 0 rest =
      word ++ splice (fixed length new) (word.reverse ++ before) 0 rest' := by
  suffices ha : ∀ v u before rest, word = u ++ v → v <+: splice (fixed length new) before 0 rest →
      ∃ rest', rest = v ++ rest' ∧ splice (fixed length new) before 0 rest =
        v ++ splice (fixed length new) (v.reverse ++ before) 0 rest' from
    ha word [] before rest rfl hst
  intro v
  induction v with
  | nil => exact fun _ _ rest _ _ => ⟨rest, rfl, rfl⟩
  | cons c v ih =>
    intro u before rest hs hv
    cases rest with
    | nil =>
      rw [splice_nil] at hv
      exact absurd (prefix_nil.mp hv) (cons_ne_nil _ _)
    | cons b rest =>
      cases hh : fixed length new before (b :: rest) with
      | some answer =>
        -- The word would reach into the replacement.
        obtain ⟨n, new'⟩ := answer
        obtain ⟨found, rest', hf, hr, rfl⟩ := (hso _).split rfl hh
        obtain rfl := (fixed_eq_some.mp hh).2
        rw [hr] at hv hh
        rw [splice_hit hh hf] at hv
        have hre := (prefix_append_right_inj u).mpr hv
        rw [← hs] at hre
        have hl := (h.into u _ hre).length_le
        rw [hs, length_append, length_cons] at hl
        omega
      | none =>
        rw [splice_miss hh] at hv ⊢
        obtain ⟨rfl, hv⟩ := cons_prefix_cons.mp hv
        obtain ⟨rest', hr, hsp⟩ := ih (u ++ [c]) (c :: before) rest (by simp [hs]) hv
        refine ⟨rest', by rw [hr, cons_append], ?_⟩
        rw [hsp]
        simp

/-- A word whose beginning holds `inner`, and which does not overlap itself there, is late
after a run without `inner`. -/
theorem late_of_free {inner run n} (hb : ∀ k < n, 0 < k → ¬ word.drop k <+: word)
    (hin : inner <:+: word.take n) (hr : ¬ inner <:+: run) : Late word run := by
  intro v hv hsu hs
  by_cases hl : v.length < n
  · refine hb v.length hl (length_pos_iff.mpr hv) ?_
    have hd := hs.drop v.length
    rwa [List.drop_left] at hd
  · have ht : word.take n <+: v := by
      refine prefix_of_prefix_length_le ((List.take_prefix _ _).trans hs) (prefix_append _ _) ?_
      rw [length_take]
      omega
    exact hr ((hin.trans ht.isInfix).trans hsu.isInfix)

theorem infix_split {c x y} (hc : c ∉ word) (h : word <:+: x ++ c :: y) :
    word <:+: x ∨ word <:+: y := by
  have hst : ∀ x, word <+: x ++ ([c] ++ y) → word <:+: x := fun x h =>
    (prefix_of_head rfl hc h).isInfix
  induction x with
  | nil => exact (infix_cons_iff.mp h).imp_left (hst [])
  | cons b x ih =>
    rcases infix_cons_iff.mp h with hs | his
    · exact .inl (hst (b :: x) hs)
    · exact (ih his).imp_left fun hin => hin.trans (suffix_cons _ _).isInfix

theorem intercalate_at {run : List α} {runs} (hne : runs ≠ []) (front : List (List α)) :
    ∃ x y, word.intercalate (front ++ run :: runs) = x ++ (word ++ y) ∧ run <:+ x := by
  induction front with
  | nil =>
    refine ⟨run, word.intercalate runs, ?_, suffix_rfl⟩
    rw [nil_append, intercalate_cons_of_ne_nil hne, append_assoc]
  | cons other front ih =>
    obtain ⟨x, y, heq, hs⟩ := ih
    refine ⟨other ++ word ++ x, y, ?_, hs.trans (suffix_append _ _)⟩
    rw [cons_append, intercalate_cons_of_ne_nil (by simp), heq, append_assoc _ x]

/-- Where `put` stands between two runs, the word overlaps neither end of it. -/
structure Joint (word put run next : List α) : Prop where
  into : ∀ v y, v ≠ [] → v <:+ run → word <+: v ++ (put ++ y) → word <+: v
  out : ∀ v y, v ≠ [] → v <:+ put → (y = [] ∨ put <+: y) → ¬ word <+: v ++ (next ++ y)

theorem Clear.joint {put} (h : Clear word put) (run next : List α) : Joint word put run next where
  into v y _ _ hs := h.into v y hs
  out v _ hv hs _ := h.out v _ hv hs

variable [DecidableEq α]

def wordAt (word : List α) (_ rest : List α) : Option Nat :=
  if word.isPrefixOf rest then some word.length else none

def replace (text word new : List α) : List α :=
  if word = [] then text else splice (fixed (wordAt word) new) [] 0 text

variable {new text before rest : List α}

theorem fixed_wordAt (before : List α) (h : word <+: rest) :
    fixed (wordAt word) new before rest = some (word.length, new) := by
  rw [fixed_eq_some, wordAt, if_pos (List.isPrefixOf_iff_prefix.mpr h)]
  exact ⟨rfl, rfl⟩

theorem wordAt_eq_none : wordAt word before rest = none ↔ ¬ word <+: rest := by
  rw [wordAt, ite_eq_right_iff, ← isPrefixOf_iff_prefix]
  simp

theorem wordAt_eq_some {n} :
    wordAt word before rest = some n ↔ word <+: rest ∧ word.length = n := by
  rw [wordAt, Option.ite_none_right_eq_some, isPrefixOf_iff_prefix, Option.some.injEq]

theorem wordAt_sound (hw : word ≠ []) (new : List α) : Sound (fixed (wordAt word) new) := by
  intro text before rest length other _ h
  obtain ⟨h, -⟩ := fixed_eq_some.mp h
  obtain ⟨hs, rfl⟩ := wordAt_eq_some.mp h
  exact ⟨length_pos_iff.mpr hw, hs.length_le⟩

theorem splice_word (hw : word ≠ []) (before before' rest : List α) :
    splice (fixed (wordAt word) new) before 0 rest =
      splice (fixed (wordAt word) new) before' 0 rest := by
  induction before, rest using scan_induction (wordAt_sound hw new) generalizing before' with
  | nil => rw [splice_nil, splice_nil]
  | found before found rest other hf hh ih =>
    have hh' : fixed (wordAt word) new before' (found ++ rest) = some (found.length, other) := hh
    rw [splice_hit hh hf, splice_hit hh' hf, ih]
  | copied before b rest hh ih =>
    have hh' : fixed (wordAt word) new before' (b :: rest) = none := hh
    rw [splice_miss hh, splice_miss hh', ih]

@[simp] theorem replace_nil : replace [] word new = [] := by
  unfold replace
  split <;> simp

theorem replace_word_append (hw : word ≠ []) (rest : List α) :
    replace (word ++ rest) word new = new ++ replace rest word new := by
  rw [replace, if_neg hw, splice_hit (fixed_wordAt [] (prefix_append _ _)) hw,
    splice_word hw _ [], replace, if_neg hw]

theorem replace_cons {b} (h : ¬ word <+: b :: rest) :
    replace (b :: rest) word new = b :: replace rest word new := by
  have hw : word ≠ [] := by
    rintro rfl
    exact h nil_prefix
  rw [replace, if_neg hw, splice_miss (fixed_eq_none.mpr (wordAt_eq_none.mpr h)),
    splice_word hw _ [], replace, if_neg hw]

/-- A text is runs with the word between them; replacing the word changes only that. -/
theorem exists_runs_replace (hw : word ≠ []) (text : List α) :
    ∃ runs, runs ≠ [] ∧ (∀ x ∈ runs, x <:+: text) ∧ text = word.intercalate runs ∧
      ∀ new, replace text word new = new.intercalate runs := by
  obtain ⟨run, runs, hru, hr, hs⟩ := exists_runs (wordAt_sound hw) [] text
  have hre : ∀ new, replace text word new = new.intercalate (run :: runs) := by
    intro new
    rw [replace, if_neg hw, hs]
  refine ⟨run :: runs, cons_ne_nil _ _, ?_, ?_, hre⟩
  · intro x hx
    rcases mem_cons.mp hx with rfl | hx
    · exact hru.isInfix
    · exact hr x hx
  · rw [← hs word]
    refine (splice_self (wordAt_sound hw word) ?_ [] text).symm
    intro before found rest other h
    obtain ⟨h, rfl⟩ := fixed_eq_some.mp h
    obtain ⟨hst, hl⟩ := wordAt_eq_some.mp h
    exact word_eq_found hst hl

theorem replace_of_absent (h : ¬ word <:+: text) : replace text word new = text := by
  induction text with
  | nil => exact replace_nil
  | cons b text ih =>
    rw [infix_cons_iff, not_or] at h
    rw [replace_cons h.1, ih h.2]

/-- **Replacing a word where it was put.** -/
theorem replace_intercalate (hw : word ≠ []) (new : List α) {runs last}
    (h : ∀ run ∈ runs, Late word run) (hl : ¬ word <:+: last) :
    replace (word.intercalate (runs ++ [last])) word new = new.intercalate (runs ++ [last]) := by
  have hm : ∀ run rest, Late word run →
      replace (run ++ (word ++ rest)) word new = run ++ (new ++ replace rest word new) := by
    intro run rest hl
    induction run with
    | nil => exact replace_word_append hw rest
    | cons b run ih =>
      rw [cons_append, replace_cons (hl.not_prefix rest), ih hl.tail, cons_append]
  induction runs with
  | nil => rw [nil_append, intercalate_singleton, intercalate_singleton, replace_of_absent hl]
  | cons run runs ih =>
    have hne : runs ++ [last] ≠ [] := by simp
    rw [cons_append, intercalate_cons_of_ne_nil hne, intercalate_cons_of_ne_nil hne, append_assoc,
      append_assoc, hm run _ (h run mem_cons_self), ih fun x hx => h x (mem_cons_of_mem _ hx)]

theorem replace_put {put} (h : ∀ v, v ≠ [] → v <:+ put → ¬ word <+: v ++ rest) (new : List α) :
    replace (put ++ rest) word new = put ++ replace rest word new := by
  have hp : ∀ v, v <:+ put → replace (v ++ rest) word new = v ++ replace rest word new := by
    intro v
    induction v with
    | nil => exact fun _ => rfl
    | cons b v ih =>
      intro hs
      have hn : ¬ word <+: b :: (v ++ rest) := h (b :: v) (cons_ne_nil _ _) hs
      rw [cons_append, replace_cons hn, ih ((suffix_cons _ _).trans hs), cons_append]
  exact hp put suffix_rfl

theorem replace_append_put {put} (hw : word ≠ [])
    (ho : ∀ v, v ≠ [] → v <:+ put → ¬ word <+: v ++ rest) (new : List α) : ∀ x,
    (∀ v y, v ≠ [] → v <:+ x → word <+: v ++ (put ++ y) → word <+: v) →
    replace (x ++ (put ++ rest)) word new = replace x word new ++ (put ++ replace rest word new)
  | [], _ => by rw [replace_nil, nil_append, nil_append, replace_put ho]
  | b :: x, hi => by
    by_cases hs : word <+: b :: x
    · obtain ⟨x', hx'⟩ := hs
      have hl := length_le_of_split hw hx'.symm
      have hsu : x' <:+ b :: x := ⟨word, hx'⟩
      rw [← hx', append_assoc, replace_word_append hw, replace_word_append hw,
        replace_append_put hw ho new x' fun v y hv hvs => hi v y hv (hvs.trans hsu), append_assoc]
    · have hn : ¬ word <+: b :: (x ++ (put ++ rest)) := fun h' =>
        hs (hi (b :: x) rest (cons_ne_nil _ _) suffix_rfl h')
      rw [cons_append, replace_cons hn, replace_cons hs, replace_append_put hw ho new x
        fun v y hv hvs => hi v y hv (hvs.trans (suffix_cons _ _)), cons_append]
termination_by x => x.length

/-- **Replacing a word between what it does not overlap.** -/
theorem replace_between {put} (hw : word ≠ []) (new : List α) {runs} (hr : runs ≠ [])
    (h : runs.IsChain (Joint word put)) :
    replace (put.intercalate runs) word new =
      put.intercalate (runs.map fun run => replace run word new) := by
  induction runs with
  | nil => exact absurd rfl hr
  | cons run runs ih =>
    cases runs with
    | nil => rw [map_singleton, intercalate_singleton, intercalate_singleton]
    | cons next runs =>
      obtain ⟨hj, hc⟩ := isChain_cons_cons.mp h
      have ho : ∀ v, v ≠ [] → v <:+ put → ¬ word <+: v ++ put.intercalate (next :: runs) := by
        intro v hv hs
        cases runs with
        | nil =>
          rw [intercalate_singleton, ← append_nil next]
          exact hj.out v [] hv hs (.inl rfl)
        | cons other runs =>
          rw [intercalate_cons_cons, append_assoc]
          exact hj.out v _ hv hs (.inr (prefix_append _ _))
      simp only [map_cons, intercalate_cons_cons, append_assoc]
      rw [replace_append_put hw ho new run hj.into, ih (cons_ne_nil _ _) hc, map_cons]

end

end Splice
