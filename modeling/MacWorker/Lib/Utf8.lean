import Mathlib.Data.List.Infix

/-! # Cutting UTF-8 texts

A text of bytes is valid when it is the encoding of some characters. It can be cut before
every byte that can begin a character, and a valid text at its start can be taken away. -/
namespace Utf8
open List

def encode (cs : List Char) : List UInt8 := cs.flatMap String.utf8EncodeChar

def Valid (bs : List UInt8) : Prop := ∃ cs, bs = encode cs

theorem encode_cons (c : Char) (cs : List Char) :
    encode (c :: cs) = String.utf8EncodeChar c ++ encode cs := rfl

theorem valid_iff_isValidUTF8 (bs : List UInt8) : Valid bs ↔ bs.toByteArray.IsValidUTF8 := by
  constructor
  · rintro ⟨cs, rfl⟩
    exact ⟨cs, rfl⟩
  · rintro ⟨cs, hcs⟩
    refine ⟨cs, ?_⟩
    have hd := congrArg (fun b => b.data.toList) hcs
    simpa [List.utf8Encode, encode] using hd

instance (bs : List UInt8) : Decidable (Valid bs) :=
  decidable_of_iff _ (valid_iff_isValidUTF8 bs).symm

theorem valid_nil : Valid [] := ⟨[], rfl⟩

theorem Valid.append {a b} (ha : Valid a) (hb : Valid b) : Valid (a ++ b) := by
  obtain ⟨cs, rfl⟩ := ha
  obtain ⟨ds, rfl⟩ := hb
  exact ⟨cs ++ ds, by simp [encode]⟩

theorem utf8EncodeChar_ne_nil (c : Char) : String.utf8EncodeChar c ≠ [] := by
  rw [← length_pos_iff, String.length_utf8EncodeChar]
  exact c.utf8Size_pos

theorem utf8EncodeChar_inj {c d x y}
    (h : String.utf8EncodeChar c ++ x = String.utf8EncodeChar d ++ y) : c = d := by
  have hd : ∀ (c : Char) (x : List UInt8),
      ByteArray.utf8DecodeChar? (String.utf8EncodeChar c ++ x).toByteArray 0 = some c := by
    intro c x
    rw [toByteArray_append]
    exact ByteArray.utf8DecodeChar?_utf8EncodeChar_append
  have hc := hd c x
  rw [h, hd d y] at hc
  exact (Option.some.inj hc).symm

theorem Valid.drop_left {a b} (ha : Valid a) (h : Valid (a ++ b)) : Valid b := by
  obtain ⟨cs, rfl⟩ := ha
  induction cs with
  | nil => exact h
  | cons c cs ih =>
    refine ih ?_
    rw [encode_cons, append_assoc] at h
    obtain ⟨ds, hds⟩ := h
    cases ds with
    | nil =>
      have hn := append_eq_nil_iff.mp hds
      exact absurd hn.1 (utf8EncodeChar_ne_nil c)
    | cons d ds =>
      rw [encode_cons] at hds
      obtain rfl := utf8EncodeChar_inj hds
      exact ⟨ds, append_cancel_left hds⟩

/-- **A text is cut** before a byte that can begin a character. -/
theorem Valid.cut {a b} (h : Valid (a ++ b)) (hb : ∀ c ∈ b.head?, c.IsUTF8FirstByte) :
    Valid a ∧ Valid b := by
  obtain ⟨cs, hcs⟩ := h
  induction cs generalizing a with
  | nil =>
    obtain ⟨rfl, rfl⟩ := append_eq_nil_iff.mp hcs
    exact ⟨valid_nil, valid_nil⟩
  | cons c cs ih =>
    rw [encode_cons] at hcs
    rcases append_eq_append_iff.mp hcs with ⟨middle, hc, hb'⟩ | ⟨middle, ha, hr⟩
    · -- The cut is inside the first character, so it is at one of its ends.
      cases middle with
      | nil =>
        rw [append_nil] at hc
        rw [nil_append] at hb'
        exact ⟨⟨[c], by simp [encode, hc]⟩, ⟨cs, hb'⟩⟩
      | cons d middle =>
        have hd : (String.utf8EncodeChar c)[a.length]? = some d := by
          rw [hc, getElem?_append_right le_rfl]
          simp
        obtain ⟨hlt, hg⟩ := List.getElem?_eq_some_iff.mp hd
        have hf := hb d (by rw [hb']; rfl)
        rw [← hg, UInt8.isUTF8FirstByte_getElem_utf8EncodeChar] at hf
        obtain rfl := length_eq_zero_iff.mp hf
        refine ⟨valid_nil, ⟨c :: cs, ?_⟩⟩
        rw [encode_cons, hc, hb']
        rfl
    · obtain ⟨hm, hv⟩ := ih hr.symm
      exact ⟨ha ▸ Valid.append ⟨[c], by simp [encode]⟩ hm, hv⟩

theorem Valid.first {b} (h : Valid b) : ∀ c ∈ b.head?, c.IsUTF8FirstByte := by
  obtain ⟨cs, rfl⟩ := h
  cases cs with
  | nil => exact nofun
  | cons d cs =>
    intro c hc
    rw [encode_cons] at hc
    have hg : (String.utf8EncodeChar d)[0]? = some c := by
      rw [← head?_eq_getElem?, ← head?_append_of_ne_nil _ (utf8EncodeChar_ne_nil d)]
      exact hc
    obtain ⟨hlt, hg⟩ := List.getElem?_eq_some_iff.mp hg
    rw [← hg, UInt8.isUTF8FirstByte_getElem_utf8EncodeChar]

/-! ## ASCII -/

theorem valid_ascii_byte {b} (h : b < 128) : Valid [b] := by
  have hb : b.toNat < 128 := h
  have hv : b.toNat.isValidChar := .inl (by omega)
  refine ⟨[Char.ofNat b.toNat], ?_⟩
  have hva : (Char.ofNat b.toNat).val.toNat = b.toNat := by
    rw [Char.ofNat, dif_pos hv]
    rfl
  rw [encode, flatMap_singleton, String.utf8EncodeChar]
  change [b] = if _ ≤ 127 then _ else _
  rw [hva, if_pos (by omega), UInt8.ofNat_toNat]

theorem valid_ascii {bs} (h : ∀ b ∈ bs, b < 128) : Valid bs := by
  induction bs with
  | nil => exact valid_nil
  | cons b bs ih =>
    exact (valid_ascii_byte (h b mem_cons_self)).append (ih fun c hc => h c (mem_cons_of_mem _ hc))

theorem first_of_ascii {b : UInt8} (h : b < 128) : b.IsUTF8FirstByte :=
  (valid_ascii_byte h).first b rfl

theorem Valid.cut_after {a b c} (hc : c < 128) (h : Valid (a ++ c :: b)) : Valid b := by
  have hcu := (h.cut (b := c :: b) fun d hd => by cases hd; exact first_of_ascii hc).2
  exact (valid_ascii_byte hc).drop_left hcu

end Utf8
