import Mathlib.Order.WellFoundedSet

/-! # What a whole run preserves, and where a walk ends

A system is a relation between states; a run is a chain of its steps. A
property that every step keeps is kept by every run. A walk along a relation
without cycles ends in every finite set. -/
namespace Reach
open Relation

section
variable {σ : Type} {step : σ → σ → Prop} {s t : σ}

/-- **What one step preserves, a run preserves.** -/
theorem invariant {p : σ → Prop} (hst : ∀ a b, p a → step a b → p b) (hs : p s)
    (hr : ReflTransGen step s t) : p t := by
  induction hr with
  | refl => exact hs
  | tail _ hl ih => exact hst _ _ ih hl

end

/-- In a finite set a relation without cycles has an element it does not lead on
from. -/
theorem exists_end {α : Type} {edge : α → α → Prop} (ha : ∀ a, ¬ TransGen edge a a)
    {s : Finset α} (hs : s.Nonempty) : ∃ a ∈ s, ∀ b ∈ s, ¬ edge a b := by
  have hir : Std.Irrefl fun a b : α => TransGen edge b a := ⟨ha⟩
  have ht : IsTrans α fun a b : α => TransGen edge b a := ⟨fun _ _ _ hab hbc => hbc.trans hab⟩
  have hst : IsStrictOrder α fun a b : α => TransGen edge b a := { }
  obtain ⟨x, hx⟩ := hs
  obtain ⟨a, -, hm⟩ := (s.wellFoundedOn (r := fun a b : α => TransGen edge b a)).has_min
    Set.univ ⟨⟨x, hx⟩, Set.mem_univ _⟩
  exact ⟨a, a.2, fun b hb hed => hm ⟨b, hb⟩ (Set.mem_univ _) (.single hed)⟩

end Reach
