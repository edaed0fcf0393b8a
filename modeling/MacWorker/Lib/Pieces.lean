import MacWorker.Lib.Splice
import Mathlib.Algebra.Order.BigOperators.Group.List
import Mathlib.Algebra.Order.Group.Nat
import Mathlib.Data.List.Count

/-! # The pieces of a scan

A scan cuts a text into pieces: elements that are copied, and stretches that are replaced.

Nothing comes out more often than it goes in, as long as it cannot come from a
replacement: an element that no replacement has (`count_output_le`), and a word that does
not begin in a mark and does not reach into one, where a replacement is a part of the
beginning of what was found, and then the mark (`places_output_le`). So a scan that gives
back as many of them as it was given has lost none. -/
namespace Splice
open List
variable {α : Type}

inductive Piece (α : Type) where
  | copied (c : α)
  | replaced (found new : List α)

def Piece.input : Piece α → List α
  | copied c => [c]
  | replaced found _ => found

def Piece.output : Piece α → List α
  | copied c => [c]
  | replaced _ new => new

def input (ps : List (Piece α)) : List α := ps.flatMap Piece.input

def output (ps : List (Piece α)) : List α := ps.flatMap Piece.output

@[simp] theorem input_nil : input ([] : List (Piece α)) = [] := rfl

@[simp] theorem output_nil : output ([] : List (Piece α)) = [] := rfl

@[simp] theorem input_copied (c : α) (ps : List (Piece α)) :
    input (.copied c :: ps) = c :: input ps := rfl

@[simp] theorem output_copied (c : α) (ps : List (Piece α)) :
    output (.copied c :: ps) = c :: output ps := rfl

@[simp] theorem input_replaced (found new : List α) (ps : List (Piece α)) :
    input (.replaced found new :: ps) = found ++ input ps := rfl

@[simp] theorem output_replaced (found new : List α) (ps : List (Piece α)) :
    output (.replaced found new :: ps) = new ++ output ps := rfl

@[simp] theorem input_append (ps qs : List (Piece α)) : input (ps ++ qs) = input ps ++ input qs :=
  flatMap_append

@[simp] theorem output_append (ps qs : List (Piece α)) :
    output (ps ++ qs) = output ps ++ output qs := flatMap_append

/-- The pieces of a scan, with the text before them, last first: at each of them the
recogniser says what it is. -/
inductive Trace (hit : Hit α) : List α → List (Piece α) → Prop
  | nil (before : List α) : Trace hit before []
  | copied {before : List α} {c : α} {ps : List (Piece α)} : hit before (c :: input ps) = none →
      Trace hit (c :: before) ps → Trace hit before (.copied c :: ps)
  | replaced {before found new : List α} {ps : List (Piece α)} : found ≠ [] →
      hit before (found ++ input ps) = some (found.length, new) →
      Trace hit (found.reverse ++ before) ps → Trace hit before (.replaced found new :: ps)

section
variable {hit : Hit α} {before : List α} {ps qs : List (Piece α)} {c : α} {found new : List α}

theorem exists_trace (hs : Sound hit) (before text : List α) :
    ∃ ps, Trace hit before ps ∧ input ps = text ∧ output ps = splice hit before 0 text := by
  induction before, text using scan_induction hs with
  | nil before => exact ⟨[], .nil before, rfl, (splice_nil _ _ _).symm⟩
  | found before found rest new hf hh ih =>
    obtain ⟨ps, hps, rfl, hou⟩ := ih
    refine ⟨.replaced found new :: ps, .replaced hf hh hps, rfl, ?_⟩
    rw [splice_hit hh hf, output_replaced, hou]
  | copied before c rest hh ih =>
    obtain ⟨ps, hps, rfl, hou⟩ := ih
    refine ⟨.copied c :: ps, .copied hh hps, rfl, ?_⟩
    rw [splice_miss hh, output_copied, hou]

theorem Trace.right (h : Trace hit before (ps ++ qs)) :
    Trace hit ((input ps).reverse ++ before) qs := by
  induction ps generalizing before with
  | nil => exact h
  | cons p ps ih =>
    cases h with
    | copied _ h =>
      have := ih h
      simpa using this
    | replaced _ _ h =>
      have := ih h
      simpa using this

theorem Trace.missed (h : Trace hit before (ps ++ .copied c :: qs)) :
    hit ((input ps).reverse ++ before) (c :: input qs) = none := by
  cases h.right with
  | copied hm _ => exact hm

theorem Trace.hit_eq (h : Trace hit before (ps ++ .replaced found new :: qs)) :
    found ≠ [] ∧ hit ((input ps).reverse ++ before) (found ++ input qs) =
      some (found.length, new) := by
  cases h.right with
  | replaced hne hh _ => exact ⟨hne, hh⟩

theorem Trace.unique (h : Trace hit before ps) (h' : Trace hit before qs)
    (hin : input ps = input qs) : ps = qs := by
  have hne : ∀ {found rest : List α}, found ≠ [] → found ++ rest ≠ [] := fun hf hn =>
    hf (append_eq_nil_iff.mp hn).1
  induction h generalizing qs with
  | nil before =>
    cases h' with
    | nil => rfl
    | copied _ _ => cases hin
    | replaced hf _ _ => exact absurd hin.symm (hne hf)
  | @copied before c ps hm _ ih =>
    cases h' with
    | nil => cases hin
    | copied _ hqs =>
      rw [input_copied, input_copied] at hin
      obtain ⟨rfl, hr⟩ := List.cons.inj hin
      rw [ih hqs hr]
    | replaced _ hh _ =>
      rw [input_copied, input_replaced] at hin
      rw [← hin, hm] at hh
      cases hh
  | @replaced before found new ps hf hh _ ih =>
    cases h' with
    | nil => exact absurd hin (hne hf)
    | copied hm _ =>
      rw [input_copied, input_replaced] at hin
      rw [← hin, hh] at hm
      cases hm
    | replaced _ hh' hqs =>
      rw [input_replaced, input_replaced] at hin
      rw [← hin, hh] at hh'
      obtain ⟨hl, rfl⟩ := Prod.mk.inj (Option.some.inj hh')
      obtain ⟨rfl, hr⟩ := append_inj hin hl
      rw [ih hqs hr]

theorem output_eq_input (h : ∀ found new, .replaced found new ∉ ps) : output ps = input ps := by
  refine flatMap_congr fun p hp => ?_
  cases p with
  | copied c => rfl
  | replaced found new => exact absurd hp (h found new)

theorem flatMap_split {β : Type} {f : β → List α} {l : List β} {front behind}
    (h : l.flatMap f = front ++ behind) :
    (∃ xs ys, l = xs ++ ys ∧ xs.flatMap f = front ∧ ys.flatMap f = behind) ∨
      ∃ xs x ys u v, l = xs ++ x :: ys ∧ f x = u ++ v ∧ u ≠ [] ∧ v ≠ [] ∧
        front = xs.flatMap f ++ u ∧ behind = v ++ ys.flatMap f := by
  rw [flatMap_def, flatten_eq_append_iff] at h
  rcases h with ⟨as, bs, hm, rfl, rfl⟩ | ⟨as, u, c, v, bs, hm, rfl, rfl⟩
  · obtain ⟨xs, ys, rfl, rfl, rfl⟩ := map_eq_append_iff.mp hm
    exact .inl ⟨xs, ys, rfl, rfl, rfl⟩
  · obtain ⟨xs, rest, rfl, rfl, hr⟩ := map_eq_append_iff.mp hm
    obtain ⟨x, ys, rfl, hx, rfl⟩ := map_eq_cons_iff.mp hr
    rcases eq_or_ne u [] with rfl | hu
    · exact .inl ⟨xs, x :: ys, rfl, by simp [flatMap_def], by simp [flatMap_def, hx]⟩
    · exact .inr ⟨xs, x, ys, u, c :: v, rfl, hx, hu, cons_ne_nil _ _, rfl, rfl⟩

/-- Where a text is cut, a piece begins, or a stretch is cut. -/
theorem input_split {front behind} (h : input ps = front ++ behind) :
    (∃ qs rs, ps = qs ++ rs ∧ input qs = front ∧ input rs = behind) ∨
      ∃ qs found new rs f g, ps = qs ++ .replaced found new :: rs ∧ found = f ++ g ∧ f ≠ [] ∧
        g ≠ [] ∧ front = input qs ++ f ∧ behind = g ++ input rs := by
  refine (flatMap_split h).imp_right ?_
  rintro ⟨qs, p, rs, f, g, hps, hp, hf, hg, hfg⟩
  cases p with
  | copied c => simp [Piece.input, singleton_eq_append_iff, hf, hg] at hp
  | replaced found new => exact ⟨qs, found, new, rs, f, g, hps, hp, hf, hg, hfg⟩

/-! ## Elements -/

section
variable [DecidableEq α]

theorem count_output_le (h : ∀ found new, .replaced found new ∈ ps → c ∉ new) :
    (output ps).count c ≤ (input ps).count c := by
  rw [output, input, count_flatMap, count_flatMap]
  refine sum_le_sum fun p hp => ?_
  cases p with
  | copied d => exact le_rfl
  | replaced found new => exact (count_eq_zero_of_not_mem (h found new hp)).trans_le zero_le

theorem count_output_eq (h : ∀ found new, .replaced found new ∈ ps → c ∉ found ∧ c ∉ new) :
    (output ps).count c = (input ps).count c := by
  rw [output, input, count_flatMap, count_flatMap]
  refine congrArg sum (map_congr_left fun p hp => ?_)
  cases p with
  | copied d => rfl
  | replaced found new =>
    obtain ⟨hf, hn⟩ := h found new hp
    exact (count_eq_zero_of_not_mem hn).trans (count_eq_zero_of_not_mem hf).symm

theorem count_output_lt (h : ∀ found new, .replaced found new ∈ ps → c ∉ new)
    (hin : .replaced found new ∈ ps) (hc : c ∈ found) :
    (output ps).count c < (input ps).count c := by
  obtain ⟨qs, rs, rfl⟩ := append_of_mem hin
  have hqs : (output qs).count c ≤ (input qs).count c :=
    count_output_le fun f n hfn => h f n (mem_append_left _ hfn)
  have hrs : (output rs).count c ≤ (input rs).count c :=
    count_output_le fun f n hfn => h f n (mem_append_right _ (mem_cons_of_mem _ hfn))
  have hn := count_eq_zero_of_not_mem (h found new hin)
  have hf := count_pos_iff.mpr hc
  simp only [input_append, output_append, input_replaced, output_replaced, count_append]
  omega

end

/-! ## Words -/

variable {word mark : List α}

theorem clear_of_ends {inner a b} (ha : a ∉ word) (hb : b ∉ word) (hw : word ≠ [])
    (h : ¬ word <:+: inner) : Clear word (a :: (inner ++ [b])) where
  into _ _ hs := prefix_of_head rfl ha hs
  out v y hv hsu hs := by
    rcases suffix_cons_iff.mp hsu with rfl | hsu
    · obtain ⟨c, w, rfl⟩ := exists_cons_of_ne_nil hw
      obtain ⟨rfl, -⟩ := cons_prefix_cons.mp hs
      exact ha mem_cons_self
    · -- The word ends before the end of the mark.
      obtain ⟨front, hf⟩ := hsu
      rcases eq_nil_or_concat v with rfl | ⟨u, d, rfl⟩
      · exact hv rfl
      · rw [concat_eq_append, ← append_assoc] at hf
        obtain ⟨hir, hd⟩ := append_inj' hf rfl
        cases hd
        rw [concat_eq_append, append_assoc] at hs
        have hin : word <+: u := prefix_of_head rfl hb (hs : word <+: u ++ ([b] ++ y))
        exact h (hin.isInfix.trans ⟨front, [], by simpa using hir⟩)

/-- A replacement is a part of the beginning of what was found, and then the mark. -/
def Marked (mark found new : List α) : Prop := ∃ kept, kept <+: found ∧ new = kept ++ mark

/-- A beginning that is clear of the marks was there before. -/
theorem prefix_output (h : ∀ found new, .replaced found new ∈ ps → Marked mark found new) {c}
    (hm : mark.head? = some c) (hc : c ∉ word) (hs : word <+: output ps) :
    word <+: input ps := by
  induction ps generalizing word with
  | nil => exact hs
  | cons p ps ih =>
    have hr : ∀ found new, .replaced found new ∈ ps → Marked mark found new :=
      fun found new hin => h found new (mem_cons_of_mem _ hin)
    cases p with
    | copied d =>
      cases word with
      | nil => exact nil_prefix
      | cons e word =>
        obtain ⟨rfl, ht⟩ := cons_prefix_cons.mp hs
        exact cons_prefix_cons.mpr ⟨rfl, ih hr (fun hin => hc (mem_cons_of_mem _ hin)) ht⟩
    | replaced found new =>
      obtain ⟨kept, hk, rfl⟩ := h found new mem_cons_self
      rw [output_replaced, append_assoc] at hs
      exact ((prefix_of_head hm hc hs).trans hk).trans (prefix_append _ _)

theorem prefix_output_of_clear (h : ∀ found new, .replaced found new ∈ ps → Clear word new) {front}
    (hs : word <+: front ++ output ps) : word <+: front ++ input ps := by
  induction ps generalizing front with
  | nil => exact hs
  | cons p ps ih =>
    cases p with
    | copied c =>
      rw [output_copied, append_cons] at hs
      rw [input_copied, append_cons]
      exact ih (fun found new hin => h found new (mem_cons_of_mem _ hin)) hs
    | replaced found new =>
      exact ((h found new mem_cons_self).into front _ hs).trans (prefix_append _ _)

section
variable [DecidableEq α]

/-- At how many places of a text a word stands. -/
def places (word : List α) : List α → Nat
  | [] => 0
  | c :: text => (if word <+: c :: text then 1 else 0) + places word text

theorem places_append_left (x y : List α) : places word y ≤ places word (x ++ y) := by
  induction x with
  | nil => exact le_rfl
  | cons c x ih =>
    rw [cons_append, places]
    omega

theorem places_append_right (x y : List α) : places word x ≤ places word (x ++ y) := by
  induction x with
  | nil => exact Nat.zero_le _
  | cons c x ih =>
    rw [cons_append, places, places]
    have hs : word <+: c :: x → word <+: c :: (x ++ y) := fun h =>
      h.trans (prefix_append (c :: x) y)
    by_cases h : word <+: c :: x
    · rw [if_pos h, if_pos (hs h)]
      omega
    · rw [if_neg h]
      omega

theorem places_pos (hw : word ≠ []) {text} : 0 < places word text ↔ word <:+: text := by
  induction text with
  | nil => simp [places, infix_nil, hw]
  | cons c text ih =>
    rw [places, infix_cons_iff, ← ih]
    by_cases hs : word <+: c :: text
    · rw [if_pos hs]
      exact ⟨fun _ => .inl hs, fun _ => by omega⟩
    · rw [if_neg hs, Nat.zero_add]
      exact ⟨.inr, fun h => h.resolve_left hs⟩

theorem places_mark (h : Clear word mark) (text : List α) :
    places word (mark ++ text) = places word text := by
  suffices ha : ∀ m, m <:+ mark → places word (m ++ text) = places word text from
    ha mark suffix_rfl
  intro m hm
  induction m with
  | nil => rfl
  | cons c m ih =>
    have hou : ¬ word <+: c :: (m ++ text) := h.out (c :: m) text (cons_ne_nil _ _) hm
    rw [cons_append, places, if_neg hou, Nat.zero_add]
    exact ih ((suffix_cons c m).trans hm)

/-- A word that is clear of the replacements stood in the text before. -/
theorem infix_output (hw : word ≠ []) (h : ∀ found new, .replaced found new ∈ ps → Clear word new)
    (hs : word <:+: output ps) : word <:+: input ps := by
  induction ps with
  | nil => exact hs
  | cons p ps ih =>
    have hr := ih fun found new hin => h found new (mem_cons_of_mem _ hin)
    cases p with
    | copied c =>
      rcases infix_cons_iff.mp hs with hst | hir
      · exact (@prefix_output_of_clear _ _ _ h [] hst).isInfix
      · exact (hr hir).trans (suffix_cons _ _).isInfix
    | replaced found new =>
      rw [output_replaced, ← places_pos hw, places_mark (h found new mem_cons_self),
        places_pos hw] at hs
      exact (hr hs).trans (suffix_append _ _).isInfix

theorem places_kept (hc : Clear word mark) {gone out rest lost}
    (hle : places word out + lost ≤ places word rest) (kept : List α) :
    places word (kept ++ (mark ++ out)) + lost ≤ places word (kept ++ (gone ++ rest)) := by
  induction kept with
  | nil =>
    rw [nil_append, nil_append, places_mark hc]
    exact hle.trans (places_append_left _ _)
  | cons d kept ih =>
    rw [cons_append, cons_append, places, places]
    by_cases hs : word <+: d :: (kept ++ (mark ++ out))
    · have hk : word <+: d :: kept := hc.into (d :: kept) out hs
      have hin : word <+: d :: (kept ++ (gone ++ rest)) := hk.trans (prefix_append (d :: kept) _)
      rw [if_pos hs, if_pos hin]
      omega
    · rw [if_neg hs]
      omega

theorem places_piece {p} (hp : ∀ found new, .replaced found new ∈ p :: ps → Marked mark found new)
    {c} (hm : mark.head? = some c) (hc : c ∉ word) (hcl : Clear word mark) {lost}
    (hle : places word (output ps) + lost ≤ places word (input ps)) :
    places word (output (p :: ps)) + lost ≤ places word (input (p :: ps)) := by
  cases p with
  | copied d =>
    rw [output_copied, input_copied, places, places]
    by_cases hs : word <+: d :: output ps
    · have hin : word <+: input (.copied d :: ps) := prefix_output hp hm hc hs
      rw [input_copied] at hin
      rw [if_pos hs, if_pos hin]
      omega
    · rw [if_neg hs]
      omega
  | replaced found new =>
    obtain ⟨kept, ⟨gone, rfl⟩, rfl⟩ := hp found new mem_cons_self
    rw [output_replaced, input_replaced, append_assoc, append_assoc]
    exact places_kept hcl hle kept

theorem places_output_le (h : ∀ found new, .replaced found new ∈ ps → Marked mark found new) {c}
    (hm : mark.head? = some c) (hc : c ∉ word) (hcl : Clear word mark) :
    places word (output ps) ≤ places word (input ps) := by
  induction ps with
  | nil => exact le_rfl
  | cons p ps ih =>
    have hr := ih fun found new hin => h found new (mem_cons_of_mem _ hin)
    rw [← Nat.add_zero (places word (output ps))] at hr
    exact places_piece h hm hc hcl hr

theorem places_output_lt {rs kept} (hw : ¬ word <+: kept) (hf : found ≠ []) (hk : kept <+: found)
    (h : ∀ f new, .replaced f new ∈ qs ++ .replaced found (kept ++ mark) :: rs → Marked mark f new)
    {c} (hm : mark.head? = some c) (hc : c ∉ word) (hcl : Clear word mark)
    (hs : word <+: found ++ input rs) :
    places word (output (qs ++ .replaced found (kept ++ mark) :: rs)) <
      places word (input (qs ++ .replaced found (kept ++ mark) :: rs)) := by
  rw [Nat.lt_iff_add_one_le]
  induction qs with
  | nil =>
    have hr : places word (output rs) ≤ places word (input rs) :=
      places_output_le (fun f new hin => h f new (mem_cons_of_mem _ hin)) hm hc hcl
    obtain ⟨d, found, rfl⟩ := exists_cons_of_ne_nil hf
    rw [nil_append, output_replaced, input_replaced]
    rw [cons_append] at hs ⊢
    rw [places, if_pos hs, append_assoc]
    cases kept with
    | nil =>
      have hmo : places word (input rs) ≤ places word (found ++ input rs) := places_append_left _ _
      rw [nil_append, places_mark hcl]
      omega
    | cons e kept =>
      obtain ⟨gone, hg⟩ := hk
      rw [cons_append] at hg
      obtain ⟨rfl, rfl⟩ := List.cons.inj hg
      have hmi : ¬ word <+: e :: (kept ++ (mark ++ output rs)) := fun hin =>
        hw (hcl.into (e :: kept) (output rs) hin)
      have hle := @places_kept _ _ _ _ hcl gone _ _ 0 hr kept
      rw [cons_append, places, if_neg hmi, append_assoc]
      omega
  | cons p qs ih =>
    exact places_piece h hm hc hcl (ih fun f new hin => h f new (mem_cons_of_mem _ hin))

end

/-! ## Replacing a word -/

section
variable [DecidableEq α] {word : List α}

theorem exists_replace_trace (hw : word ≠ []) (new text : List α) :
    ∃ ps, Trace (fixed (wordAt word) new) [] ps ∧ input ps = text ∧
      output ps = replace text word new ∧
      ∀ found n, .replaced found n ∈ ps → found = word ∧ n = new := by
  obtain ⟨ps, hps, hin, hou⟩ := exists_trace (wordAt_sound hw new) [] text
  refine ⟨ps, hps, hin, ?_, fun found n hm => ?_⟩
  · rw [hou, replace, if_neg hw]
  · obtain ⟨qs, rs, rfl⟩ := append_of_mem hm
    obtain ⟨hat, rfl⟩ := fixed_eq_some.mp hps.hit_eq.2
    obtain ⟨hs, hl⟩ := wordAt_eq_some.mp hat
    exact ⟨(word_eq_found hs hl).symm, rfl⟩

/-- Where a word stands, it is replaced, or it begins inside what is. -/
theorem Trace.replaced_at {new front behind} (h : Trace (fixed (wordAt word) new) [] ps)
    (hw : word ≠ []) (ht : input ps = front ++ (word ++ behind)) :
    ∃ qs found n rs, ps = qs ++ .replaced found n :: rs ∧
      (input qs = front ∨ ∃ f g, found = f ++ g ∧ f ≠ [] ∧ g ≠ [] ∧ front = input qs ++ f) := by
  rcases input_split ht with ⟨qs, rs, rfl, hqs, hrs⟩ |
    ⟨qs, found, n, rs, f, g, hps, hfo, hf, hg, hfr, -⟩
  · cases rs with
    | nil => exact absurd (append_eq_nil_iff.mp hrs.symm).1 hw
    | cons p rs =>
      cases p with
      | replaced found n => exact ⟨qs, found, n, rs, rfl, .inl hqs⟩
      | copied c =>
        have hm := wordAt_eq_none.mp (fixed_eq_none.mp h.missed)
        rw [input_copied] at hrs
        rw [hrs] at hm
        exact absurd (prefix_append _ _) hm
  · exact ⟨qs, found, n, rs, hps, .inr ⟨f, g, hfo, hf, hg, hfr⟩⟩

theorem places_replace_lt {text} (hw : word ≠ []) {c} (hm : mark.head? = some c) (hc : c ∉ word)
    (hcl : Clear word mark) (his : word <:+: text) :
    places word (replace text word mark) < places word text := by
  obtain ⟨ps, hps, rfl, hou, ha⟩ := exists_replace_trace hw mark text
  obtain ⟨front, behind, ht⟩ := his
  rw [append_assoc] at ht
  obtain ⟨qs, found, new, rs, rfl, -⟩ := hps.replaced_at hw ht.symm
  obtain ⟨rfl, rfl⟩ := ha found new (by simp)
  rw [← hou]
  refine places_output_lt (fun hn => hw (prefix_nil.mp hn)) hw nil_prefix ?_ hm
    hc hcl (prefix_append _ _)
  intro f n hin
  obtain ⟨rfl, rfl⟩ := ha f n hin
  exact ⟨[], nil_prefix, rfl⟩

/-- A text may be cut at an element the word does not have. -/
theorem replace_split {new c} (hc : c ∉ word) (front behind : List α) :
    replace (front ++ c :: behind) word new =
      replace front word new ++ c :: replace behind word new := by
  by_cases hw : word = []
  · simp only [replace, if_pos hw]
  · obtain ⟨d, tail, rfl⟩ := exists_cons_of_ne_nil hw
    have hd : d ∉ [c] := fun hin => hc (by simp [mem_singleton.mp hin])
    have hcl : Clear (d :: tail) [c] := clear_of_heads rfl hc rfl hd
    exact replace_append_put hw (fun v => hcl.out v behind) new front fun v y _ _ => hcl.into v y

end

end
end Splice
