import MacWorker.Lib.Pieces

/-! # Searching for a word

A word is searched for from the left, each time behind the end of the one before: a place
is found if it does not begin inside one that is found.

A place of a word that begins with an element can be given by how many of them come before
it. Whether it is found there depends on where the word stands at no later places, and on
nothing else of the text (`soughtAt_congr`). -/
namespace Splice
open List
variable {α : Type} [DecidableEq α] {word text : List α}

/-- A place of a word as it is searched for, one after the end of the other, given by the
text before it. -/
def Sought (word text front : List α) : Prop :=
  ∃ qs rs, Trace (fixed (wordAt word) word) [] (qs ++ .replaced word word :: rs) ∧
    input (qs ++ .replaced word word :: rs) = text ∧ input qs = front

/-- Where a word stands, it is found, or it begins inside one that is. -/
theorem sought_or_inside (hw : word ≠ []) {text front} (h : front ++ word <+: text) :
    Sought word text front ∨ ∃ front' f g, Sought word text front' ∧ front = front' ++ f ∧ f ≠ [] ∧
      g ≠ [] ∧ word = f ++ g := by
  obtain ⟨behind, ht⟩ := h
  obtain ⟨ps, hps, hin, -, ha⟩ := exists_replace_trace hw word text
  have hc : input ps = front ++ (word ++ behind) := by rw [hin, ← ht, append_assoc]
  obtain ⟨qs, found, n, rs, rfl, hat⟩ := hps.replaced_at hw hc
  obtain ⟨rfl, rfl⟩ := ha found n (by simp)
  rcases hat with hqs | ⟨f, g, hfo, hf, hg, hfr⟩
  · exact .inl ⟨qs, rs, hps, hin, hqs⟩
  · exact .inr ⟨input qs, f, g, ⟨qs, rs, hps, hin, rfl⟩, hfr, hf, hg, hfo⟩

theorem Sought.stands {text front} (h : Sought word text front) : front ++ word <+: text := by
  obtain ⟨qs, rs, -, rfl, rfl⟩ := h
  exact ⟨input rs, by simp⟩

theorem Sought.apart {text front f} (h : Sought word text front)
    (h' : Sought word text (front ++ f)) (hf : f ≠ []) : word <+: f := by
  obtain ⟨qs, rs, hps, hin, hqs⟩ := h
  obtain ⟨qs', rs', hps', hin', hqs'⟩ := h'
  have hs := hps.unique hps' (hin.trans hin'.symm)
  rcases append_eq_append_iff.mp hs with ⟨as, rfl, hr⟩ | ⟨as, rfl, -⟩
  · cases as with
    | nil =>
      rw [append_nil, hqs] at hqs'
      exact absurd (self_eq_append_right.mp hqs') hf
    | cons p as =>
      obtain ⟨rfl, -⟩ := List.cons.inj hr
      rw [input_append, hqs, input_replaced] at hqs'
      rw [← append_cancel_left hqs']
      exact prefix_append _ _
  · rw [input_append, hqs', append_assoc] at hqs
    have hn := append_eq_nil_iff.mp (append_right_eq_self.mp hqs)
    exact absurd hn.1 hf

/-! ## Places counted by the first element of the word -/

section
variable {c : α}

omit [DecidableEq α] in
theorem mark_of_stands (hw : word.head? = some c) {front} (h : front ++ word <+: text) :
    front ++ [c] <+: text := by
  cases word with
  | nil => cases hw
  | cons d word =>
    cases hw
    exact List.IsPrefix.trans ⟨word, by simp⟩ h

theorem exists_of_count_lt {front front'} (h : front ++ [c] <+: text) (h' : front' ++ [c] <+: text)
    (hlt : front.count c < front'.count c) :
    ∃ f, front' = front ++ c :: f := by
  rcases prefix_or_prefix_of_prefix h h' with hin | hin
  · rcases prefix_concat_iff.mp hin with hs | ⟨f, hf⟩
    · obtain ⟨rfl, -⟩ := append_inj' hs rfl
      exact absurd hlt (lt_irrefl _)
    · exact ⟨f, by rw [← hf]; simp⟩
  · have hle := hin.sublist.count_le c
    simp only [count_append] at hle
    omega

theorem eq_of_count_eq {front front'} (h : front ++ [c] <+: text) (h' : front' ++ [c] <+: text)
    (heq : front.count c = front'.count c) : front = front' := by
  have hle : ∀ {x y : List α}, x ++ [c] <+: y ++ [c] → x.count c = y.count c → x = y := by
    intro x y hin heq
    rcases prefix_concat_iff.mp hin with hs | hin
    · exact (append_inj' hs rfl).1
    · have := hin.sublist.count_le c
      rw [count_append, count_singleton_self] at this
      omega
  rcases prefix_or_prefix_of_prefix h h' with hin | hin
  · exact hle hin heq
  · exact (hle hin heq.symm).symm

/-- A place is found where the word stands behind the end of every one that is found
before. -/
theorem sought_iff (hw : word.head? = some c) {front} :
    Sought word text front ↔ front ++ word <+: text ∧ ∀ front' f, front = front' ++ f → f ≠ [] →
      Sought word text front' → word.count c ≤ f.count c := by
  have hne : word ≠ [] := by
    rintro rfl
    cases hw
  constructor
  · intro h
    refine ⟨h.stands, fun front' f heq hf h' => ?_⟩
    subst heq
    exact (h'.apart h hf).sublist.count_le c
  · rintro ⟨hs, ha⟩
    rcases sought_or_inside hne hs with h | ⟨front', f, g, h', rfl, hf, hg, rfl⟩
    · exact h
    · -- The word begins again in what is left of the other one.
      exfalso
      have hle := ha front' f rfl hf h'
      obtain ⟨d, g, rfl⟩ := exists_cons_of_ne_nil hg
      have hd : d = c := by
        have hm := mark_of_stands hw hs
        have hot : front' ++ f ++ [d] <+: text := List.IsPrefix.trans ⟨g, by simp⟩ h'.stands
        have hsa := (prefix_of_prefix_length_le hot hm (by simp)).eq_of_length (by simp)
        exact singleton_inj.mp (append_cancel_left hsa)
      rw [hd, count_append, count_cons_self] at hle
      omega

variable (c) in
/-- The word stands at the mark that has so many before it. -/
def StandsAt (word text : List α) (k : Nat) : Prop :=
  ∃ front, front.count c = k ∧ front ++ word <+: text

variable (c) in
def SoughtAt (word text : List α) (k : Nat) : Prop :=
  ∃ front, front.count c = k ∧ Sought word text front

theorem standsAt_append (hw : word.head? = some c) {k j} (hle : j ≤ k) (h : StandsAt c word text k)
    (tail : List α) :
    StandsAt c word text j ↔ StandsAt c word (text ++ tail) j := by
  constructor
  · rintro ⟨front, hj, hs⟩
    exact ⟨front, hj, hs.trans (prefix_append _ _)⟩
  · rintro ⟨front', hj, hs'⟩
    obtain ⟨front, hk, hs⟩ := h
    have hm := mark_of_stands hw (hs.trans (prefix_append text tail))
    have hm' := mark_of_stands hw hs'
    have hb : front' <+: front := by
      rcases hle.eq_or_lt with heq | hlt
      · rw [eq_of_count_eq hm' hm (by omega)]
      · obtain ⟨f, rfl⟩ := exists_of_count_lt hm' hm (by omega)
        exact prefix_append _ _
    refine ⟨front', hj, prefix_of_prefix_length_le hs' (prefix_append _ _) ?_⟩
    have hl := hb.length_le
    have hf := hs.length_le
    rw [length_append] at hf ⊢
    omega

/-- **Where a word is found depends on where it stands.** -/
theorem soughtAt_congr (hw : word.head? = some c) {text' k}
    (h : ∀ j ≤ k, StandsAt c word text j ↔ StandsAt c word text' j) :
    SoughtAt c word text k ↔ SoughtAt c word text' k := by
  induction k using Nat.strong_induction_on generalizing text text' with
  | _ k ih =>
    -- By symmetry one direction is enough.
    suffices hon : ∀ {text text' : List α},
      (∀ j ≤ k, StandsAt c word text j ↔ StandsAt c word text' j) →
        SoughtAt c word text k → SoughtAt c word text' k from
      ⟨hon h, hon fun j hj => (h j hj).symm⟩
    rintro text text' h ⟨front, hc, hso⟩
    obtain ⟨hs, ha⟩ := (sought_iff hw).mp hso
    obtain ⟨front', hc', hs'⟩ := (h k le_rfl).mp ⟨front, hc, hs⟩
    refine ⟨front', hc', (sought_iff hw).mpr ⟨hs', ?_⟩⟩
    rintro before' f' rfl hf' hso'
    -- One that is found before is found in the other text as well.
    have hm' := mark_of_stands hw hso'.stands
    have hlt : before'.count c < (before' ++ f').count c := by
      have hl : before' ++ [c] <+: before' ++ f' := by
        refine prefix_of_prefix_length_le hm' ((prefix_append _ _).trans hs') ?_
        have := length_pos_iff.mpr hf'
        simp only [length_append, length_singleton]
        omega
      have hle := hl.sublist.count_le c
      rw [count_append, count_singleton_self] at hle
      omega
    obtain ⟨before, hb, hf⟩ := (ih (before'.count c) (hc' ▸ hlt) fun j hj =>
      h j (by omega)).mpr ⟨before', rfl, hso'⟩
    obtain ⟨f, rfl⟩ := exists_of_count_lt (mark_of_stands hw hf.stands)
      (mark_of_stands hw hs) (by omega)
    have hle := ha before (c :: f) rfl (cons_ne_nil _ _) hf
    rw [count_append] at hc hc'
    omega

end

end Splice
