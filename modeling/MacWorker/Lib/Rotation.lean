import Mathlib.Algebra.Order.Floor.Div
import Mathlib.Data.List.Rotate
import Mathlib.Data.List.Sort
import Mathlib.GroupTheory.GroupAction.Ring

/-! # Rotating through a sorted list

A pass takes a window of a sorted list, starting after the element where the
last pass stopped and wrapping around at the end. As long as the list stays the
same, consecutive passes cover it (`windows_cover`). -/
namespace Rotation
open List

variable {κ : Type} [LinearOrder κ]

def start (cursor : Option κ) (sorted : List κ) : Nat :=
  match cursor with
  | none => 0
  | some last => (sorted.findIdx? fun x => last < x).getD 0

/-- The list from the first element after the cursor on, and then from its beginning. -/
def past (cursor : Option κ) (sorted : List κ) : List κ :=
  sorted.drop (start cursor sorted) ++ sorted.take (start cursor sorted)

variable {sorted : List κ}

theorem start_le (cursor : Option κ) (sorted : List κ) : start cursor sorted ≤ sorted.length := by
  cases cursor with
  | none => exact Nat.zero_le _
  | some last =>
    simp only [start]
    cases h : sorted.findIdx? fun x => last < x with
    | none => exact Nat.zero_le _
    | some pos =>
      rw [findIdx?_eq_some_iff_getElem] at h
      exact Nat.le_of_lt h.1

theorem past_eq_rotate (cursor : Option κ) (sorted : List κ) :
    past cursor sorted = sorted.rotate (start cursor sorted) :=
  (rotate_eq_drop_append_take (start_le cursor sorted)).symm

theorem start_getElem (hs : sorted.Pairwise (· < ·)) {i} (hi : i < sorted.length) :
    start (some sorted[i]) sorted = (i + 1) % sorted.length := by
  have hlt : ∀ j (hj : j < sorted.length), sorted[i] < sorted[j] ↔ i < j := fun _ _ =>
    hs.sortedLT.getElem_lt_getElem_iff
  unfold start
  by_cases hen : i + 1 < sorted.length
  · have hf : (sorted.findIdx? fun x => sorted[i] < x) = some (i + 1) := by
      rw [findIdx?_eq_some_iff_getElem]
      refine ⟨hen, by simpa using (hlt (i + 1) hen).mpr (Nat.lt_succ_self i), ?_⟩
      intro j hj
      have hn : ¬ sorted[i] < sorted[j] := fun h => absurd ((hlt j (by omega)).mp h) (by omega)
      simpa using hn
    simp only [hf, Option.getD_some, Nat.mod_eq_of_lt hen]
  · have hf : (sorted.findIdx? fun x => sorted[i] < x) = none := by
      rw [findIdx?_eq_none_iff]
      intro x hx
      obtain ⟨j, hj, rfl⟩ := getElem_of_mem hx
      have hn : ¬ sorted[i] < sorted[j] := fun h => absurd ((hlt j hj).mp h) (by omega)
      simpa using hn
    have hl : i + 1 = sorted.length := by omega
    simp only [hf, Option.getD_none, hl, Nat.mod_self]

omit [LinearOrder κ] in
theorem mem_window {p b j} (hb : j < b) (hj : j < sorted.length)
    (hi : (p + j) % sorted.length < sorted.length) :
    sorted[(p + j) % sorted.length] ∈ (sorted.rotate p).take b := by
  have hl : j < ((sorted.rotate p).take b).length := by
    rw [length_take, length_rotate]
    omega
  have hg : ((sorted.rotate p).take b)[j] = sorted[(p + j) % sorted.length] := by
    rw [getElem_take, getElem_rotate]
    congr 1
    rw [Nat.add_comm]
  rw [← hg]
  exact getElem_mem hl

theorem start_last (hs : sorted.Pairwise (· < ·)) {p b} (hb : 0 < b) {last}
    (hl : ((sorted.rotate p).take b).getLast? = some last) :
    start (some last) sorted = (p + min b sorted.length) % sorted.length := by
  have hp : 0 < sorted.length := by
    rcases Nat.eq_zero_or_pos sorted.length with h | h
    · simp [length_eq_zero_iff.mp h] at hl
    · exact h
  have hle : ((sorted.rotate p).take b).length = min b sorted.length := by
    rw [length_take, length_rotate]
  have hid : min b sorted.length - 1 < sorted.length := by omega
  have hm := Nat.mod_lt (min b sorted.length - 1 + p) hp
  have hv : last = sorted[(min b sorted.length - 1 + p) % sorted.length] := by
    rw [getLast?_eq_getElem?, hle] at hl
    rw [getElem?_take_of_lt (by omega), getElem?_rotate hid, getElem?_eq_getElem hm] at hl
    exact (Option.some.inj hl).symm
  rw [hv, start_getElem hs, Nat.mod_add_mod]
  congr 1
  omega

/-- **Consecutive windows cover the list.** Each pass starts after the last element of the
window before it; `n` passes of width `b` with `n * b` at least the length visit every
element. -/
theorem windows_cover (hs : sorted.Pairwise (· < ·)) {b n} (hb : 0 < b) (hn : sorted.length ≤ n * b)
    (cursor : Nat → Option κ)
    (hnx : ∀ k, k < n → ∀ last, ((past (cursor k) sorted).take b).getLast? = some last →
      cursor (k + 1) = some last) :
    ∀ x ∈ sorted, ∃ k, k < n ∧ x ∈ (past (cursor k) sorted).take b := by
  intro x hx
  obtain ⟨i, hi, rfl⟩ := getElem_of_mem hx
  have hpo : 0 < sorted.length := by omega
  set m := min b sorted.length
  have hst : ∀ k, k ≤ n → start (cursor k) sorted % sorted.length =
      (start (cursor 0) sorted + k * m) % sorted.length := by
    intro k
    induction k with
    | zero => intro _; rw [Nat.zero_mul, Nat.add_zero]
    | succ k ih =>
      intro hk
      have hso : ∃ last, ((past (cursor k) sorted).take b).getLast? = some last := by
        rw [past_eq_rotate]
        have hne : (sorted.rotate (start (cursor k) sorted)).take b ≠ [] := by
          refine ne_nil_of_length_pos ?_
          rw [length_take, length_rotate]
          omega
        exact ⟨_, getLast?_eq_some_getLast hne⟩
      obtain ⟨last, hl⟩ := hso
      rw [hnx k (by omega) last hl]
      rw [past_eq_rotate] at hl
      rw [start_last hs hb hl, Nat.mod_mod, Nat.add_mod, ih (by omega), ← Nat.add_mod,
        Nat.add_assoc, ← Nat.succ_mul]
  -- the offset of the element from where the passes start, and the pass that reaches it
  have hm : 0 < m := by omega
  obtain ⟨j, hj, hij⟩ : ∃ j, j < sorted.length ∧
      (start (cursor 0) sorted + j) % sorted.length = i := by
    have hp := Nat.mod_lt (start (cursor 0) sorted) hpo
    refine ⟨(i + (sorted.length - start (cursor 0) sorted % sorted.length)) % sorted.length,
      Nat.mod_lt _ hpo, ?_⟩
    have hro : start (cursor 0) sorted % sorted.length +
        (i + (sorted.length - start (cursor 0) sorted % sorted.length)) = i + sorted.length := by
      omega
    rw [Nat.add_mod_mod, ← Nat.mod_add_mod, hro, Nat.add_mod_right, Nat.mod_eq_of_lt hi]
  have hk : j / m < n := by
    rw [Nat.div_lt_iff_lt_mul hm]
    rcases Nat.le_total b sorted.length with h | h
    · rw [show m = b from Nat.min_eq_left h]
      omega
    · rw [show m = sorted.length from Nat.min_eq_right h]
      have : 0 < n := Nat.pos_of_ne_zero (by rintro rfl; omega)
      exact lt_of_lt_of_le hj (Nat.le_mul_of_pos_left _ this)
  refine ⟨j / m, hk, ?_⟩
  have hr : j % m < m := Nat.mod_lt _ hm
  have hid : (start (cursor (j / m)) sorted + j % m) % sorted.length = i := by
    rw [← Nat.mod_add_mod, hst _ (Nat.le_of_lt hk), Nat.mod_add_mod, Nat.add_assoc,
      Nat.div_add_mod', hij]
  have hmo := Nat.mod_lt (start (cursor (j / m)) sorted + j % m) hpo
  have hme : sorted[(start (cursor (j / m)) sorted + j % m) % sorted.length] ∈
      (sorted.rotate (start (cursor (j / m)) sorted)).take b :=
    mem_window (by omega) (by omega) hmo
  rw [past_eq_rotate]
  simpa only [hid] using hme

theorem windows_cover_ceilDiv {b} (hb : 0 < b)
    (hs : 0 < sorted.length ⌈/⌉ b → sorted.Pairwise (· < ·)) (cursor : Nat → Option κ)
    (hn : ∀ k, k < sorted.length ⌈/⌉ b → ∀ last,
      ((past (cursor k) sorted).take b).getLast? = some last → cursor (k + 1) = some last) :
    ∀ x ∈ sorted, ∃ k, k < sorted.length ⌈/⌉ b ∧ x ∈ (past (cursor k) sorted).take b := by
  intro x hx
  have hc : sorted.length ≤ sorted.length ⌈/⌉ b * b := by
    have hle : sorted.length ≤ b • (sorted.length ⌈/⌉ b) := le_smul_ceilDiv hb
    rwa [smul_eq_mul, Nat.mul_comm] at hle
  have hf : 0 < sorted.length ⌈/⌉ b := by
    have hl : 0 < sorted.length := length_pos_of_mem hx
    by_contra hz
    rw [Nat.eq_zero_of_not_pos hz] at hc
    omega
  exact windows_cover (hs hf) hb hc cursor hn x hx

end Rotation
