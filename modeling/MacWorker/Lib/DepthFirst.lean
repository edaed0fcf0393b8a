import Mathlib.Data.Finset.Card
import Mathlib.Data.List.Chain

/-! # Depth-first search for a cycle

Three-colour depth-first search over a graph given by its lists of successors. Grey nodes
are the ones on the current path; meeting one again closes a cycle. The recursion is on a
fuel that bounds the depth, and one for every white node of a set closed under successors
is enough.

A white node that is visited without a cycle turns black, and every black node is
accessible for the successor relation, so no cycle passes through it. -/
namespace DepthFirst
open Relation List

inductive Color where
  | white
  | gray
  | black
  deriving DecidableEq

inductive Result (α : Type) where
  | cycle (path : List α)
  | finished (color : α → Color)

section
variable {α : Type} [DecidableEq α]

/-- The part of the path from `next` on, closed by `next`. -/
def closing (stack : List α) (next : α) : List α :=
  stack.drop ((stack.findIdx? (· == next)).getD 0) ++ [next]

def explore (visit : (α → Color) → List α → α → Option (Result α)) (stack : List α) :
    (α → Color) → List α → Option (Result α)
  | color, [] => some (.finished color)
  | color, next :: rest =>
    match color next with
    | .gray => some (.cycle (closing stack next))
    | .white =>
      match visit color stack next with
      | none => none
      | some (.cycle path) => some (.cycle path)
      | some (.finished color) => explore visit stack color rest
    | .black => explore visit stack color rest

/-- Visit a node; `none` means that the fuel ran out. -/
def visit (succ : α → List α) : Nat → (α → Color) → List α → α → Option (Result α)
  | 0, _, _, _ => none
  | fuel + 1, color, stack, node =>
    match explore (visit succ fuel) (stack ++ [node]) (Function.update color node .gray)
        (succ node) with
    | none => none
    | some (.cycle path) => some (.cycle path)
    | some (.finished color) => some (.finished (Function.update color node .black))

def search (succ : α → List α) (fuel : Nat) : (α → Color) → List α → Option (Result α)
  | color, [] => some (.finished color)
  | color, node :: rest =>
    if color node = .white then
      match visit succ fuel color [] node with
      | none => none
      | some (.cycle path) => some (.cycle path)
      | some (.finished color) => search succ fuel color rest
    else search succ fuel color rest

end

/-! ## Paths and cycles -/

section
variable {α : Type} {succ : α → List α}

def Edge (succ : α → List α) (a b : α) : Prop := b ∈ succ a

/-- No infinite path leaves the node. -/
def Grounded (succ : α → List α) (v : α) : Prop := Acc (fun w v => Edge succ v w) v

/-- Each node leads to the next, and the last is the first again. -/
structure ClosedPath (edge : α → α → Prop) (path : List α) : Prop where
  chain : path.IsChain edge
  closed : path.head? = path.getLast?
  long : 2 ≤ path.length

theorem Grounded.not_cyclic {v} (h : Grounded succ v) : ¬ TransGen (Edge succ) v v := by
  induction h with
  | intro v _ ih =>
    intro hc
    obtain ⟨w, hed, hb⟩ := TransGen.head'_iff.mp hc
    exact ih w hed (TransGen.tail' hb hed)

theorem ClosedPath.cyclic {edge : α → α → Prop} {path : List α} (h : ClosedPath edge path) :
    ∃ v, TransGen edge v v := by
  obtain ⟨hc, hcl, hl⟩ := h
  match path, hl with
  | a :: b :: rest, _ =>
    have hla : (b :: rest).getLast (by simp) = a := by
      have hs : some a = some ((b :: rest).getLast (by simp)) := by
        simpa [getLast?_eq_some_getLast] using hcl
      exact (Option.some.inj hs).symm
    rw [isChain_cons_cons] at hc
    have hb := relationReflTransGen_of_exists_isChain_cons rest hc.2 hla
    exact ⟨a, TransGen.head' hc.1 hb⟩

theorem ClosedPath.mono {edge edge' : α → α → Prop} {path : List α} (h : ClosedPath edge path)
    (hed : ∀ a b, edge a b → edge' a b) : ClosedPath edge' path :=
  ⟨h.chain.imp hed, h.closed, h.long⟩

end

/-! ## What the search finds -/

section
variable {α : Type} {succ : α → List α} {color : α → Color} {stack : List α} {node : α}

/-- The grey nodes are the current path, and black nodes are done with. -/
structure Searching (succ : α → List α) (color : α → Color) (stack : List α) : Prop where
  gray_iff : ∀ v, color v = .gray ↔ v ∈ stack
  chain : stack.IsChain (Edge succ)
  black : ∀ v, color v = .black → Grounded succ v

/-- No node is whiter than before, and what was black still is. -/
structure Darker (color color' : α → Color) : Prop where
  white : ∀ v, color' v = .white → color v = .white
  black : ∀ v, color v = .black → color' v = .black

/-- The search returns a genuine cycle, or every node of `done` is black after it. -/
def Finds (succ : α → List α) (color : α → Color) (stack done : List α) :
    Option (Result α) → Prop
  | none => False
  | some (.cycle path) => ClosedPath (Edge succ) path
  | some (.finished color') => Searching succ color' stack ∧ Darker color color' ∧
      ∀ v ∈ done, color' v = .black

theorem Finds.cons {color₁ done outcome next} (h : Finds succ color₁ stack done outcome)
    (hk : Darker color color₁) (hn : color₁ next = .black) :
    Finds succ color stack (next :: done) outcome := by
  match outcome with
  | some (.cycle path) => exact h
  | some (.finished color') =>
    obtain ⟨hs, hk₁, hd⟩ := h
    refine ⟨hs, ⟨fun v hv => hk.white v (hk₁.white v hv), fun v hv => hk₁.black v (hk.black v hv)⟩,
      fun v hv => ?_⟩
    rcases mem_cons.mp hv with rfl | hr
    · exact hk₁.black v hn
    · exact hd v hr

theorem Darker.refl (color : α → Color) : Darker color color := ⟨fun _ h => h, fun _ h => h⟩

/-! ## How much fuel is enough -/

def whites (univ : Finset α) (color : α → Color) : Finset α :=
  univ.filter fun v => color v = .white

variable {univ : Finset α}

theorem Darker.whites_card_le {color₁} (h : Darker color color₁) :
    (whites univ color₁).card ≤ (whites univ color).card := by
  apply Finset.card_le_card
  intro v hv
  obtain ⟨hm, hw⟩ := Finset.mem_filter.mp hv
  exact Finset.mem_filter.mpr ⟨hm, h.white v hw⟩

/-- A visit meets its specification from every state of the search. -/
def VisitFinds (succ : α → List α) (univ : Finset α) (fuel : Nat)
    (visit : (α → Color) → List α → α → Option (Result α)) : Prop :=
  ∀ color stack node, Searching succ color stack → (whites univ color).card ≤ fuel →
    node ∈ univ → color node = .white → (stack ++ [node]).IsChain (Edge succ) →
    Finds succ color stack [node] (visit color stack node)

/-- A path that comes back to one of its own nodes has a cycle as a suffix. -/
theorem closedPath_of_split {before after next}
    (hc : (before ++ next :: after ++ [next]).IsChain (Edge succ)) :
    ClosedPath (Edge succ) (next :: after ++ [next]) := by
  rw [append_assoc] at hc
  refine ⟨hc.right_of_append, ?_, by simp⟩
  rw [getLast?_concat, cons_append, head?_cons]

variable [DecidableEq α]

theorem closing_closedPath {next} (hc : (stack ++ [next]).IsChain (Edge succ)) (hn : next ∈ stack) :
    ClosedPath (Edge succ) (closing stack next) := by
  have hid := findIdx?_eq_some_of_exists (p := (· == next)) ⟨next, hn, by simp⟩
  have hlt := findIdx_lt_length_of_exists (p := (· == next)) ⟨next, hn, by simp⟩
  have hf : stack[stack.findIdx (· == next)] = next := by
    simpa using findIdx_getElem (w := hlt)
  have hd := drop_eq_getElem_cons hlt
  rw [hf] at hd
  rw [closing, hid, Option.getD_some, hd]
  have hs := take_append_drop (stack.findIdx (· == next)) stack
  rw [hd] at hs
  exact closedPath_of_split (hs ▸ hc)

/-- Following the edges of the last node of the path keeps what each visit
keeps, and leaves all of them black. -/
theorem explore_finds {visit fuel} (hv : VisitFinds succ univ fuel visit) (nexts : List α)
    (hun : ∀ next ∈ nexts, next ∈ univ)
    (hed : ∀ next ∈ nexts, (stack ++ [next]).IsChain (Edge succ)) :
    ∀ {color}, Searching succ color stack → (whites univ color).card ≤ fuel →
    Finds succ color stack nexts (explore visit stack color nexts) := by
  induction nexts with
  | nil => exact fun hs _ => ⟨hs, .refl _, by simp⟩
  | cons next rest ih =>
    intro color hs hf
    obtain ⟨hne, hr⟩ := forall_mem_cons.mp hed
    obtain ⟨hu, hun⟩ := forall_mem_cons.mp hun
    unfold explore
    split
    case h_1 hg => exact closing_closedPath hne ((hs.gray_iff next).mp hg)
    case h_2 hw =>
      have hvi := hv _ _ _ hs hf hu hw hne
      generalize visit color stack next = outcome at hvi ⊢
      match outcome, hvi with
      | some (.cycle _), hvi => exact hvi
      | some (.finished _), ⟨hs₁, hk₁, hd₁⟩ =>
        exact (ih hun hr hs₁ (hk₁.whites_card_le.trans hf)).cons hk₁ (hd₁ next (by simp))
    case h_3 hb => exact (ih hun hr hs hf).cons (.refl _) hb

theorem Searching.push (hs : Searching succ color stack)
    (hc : (stack ++ [node]).IsChain (Edge succ)) :
    Searching succ (Function.update color node .gray) (stack ++ [node]) := by
  refine ⟨fun v => ?_, hc, fun v hv => ?_⟩
  · by_cases hv : v = node
    · simp [hv]
    · simp [hv, hs.gray_iff]
  · by_cases hn : v = node
    · simp [hn] at hv
    · exact hs.black v (by simpa [hn] using hv)

theorem Searching.pop {color₁} (hs : Searching succ color₁ (stack ++ [node])) (hnw : node ∉ stack)
    (hd : ∀ next ∈ succ node, color₁ next = .black) :
    Searching succ (Function.update color₁ node .black) stack := by
  refine ⟨fun v => ?_, hs.chain.left_of_append, fun v hv => ?_⟩
  · by_cases hn : v = node
    · simp [hn, hnw]
    · simp [hn, hs.gray_iff]
  · by_cases hn : v = node
    · subst hn
      exact Acc.intro v fun next hne => hs.black next (hd next hne)
    · exact hs.black v (by simpa [hn] using hv)

theorem whites_update_gray {color node} (hm : node ∈ univ) (hwh : color node = .white) :
    (whites univ (Function.update color node .gray)).card < (whites univ color).card := by
  have he : whites univ (Function.update color node .gray) = (whites univ color).erase node := by
    ext v
    by_cases hv : v = node <;> simp [whites, hv]
  rw [he]
  exact Finset.card_erase_lt_of_mem (Finset.mem_filter.mpr ⟨hm, hwh⟩)

section
variable (hc : ∀ v ∈ univ, ∀ w ∈ succ v, w ∈ univ)
include hc

theorem visit_finds (fuel : Nat) : VisitFinds succ univ fuel (visit succ fuel) := by
  induction fuel with
  | zero =>
    intro color stack node _ hf hm hw
    have hlt := whites_update_gray hm hw
    omega
  | succ fuel ih =>
    intro color stack node hs hf hm hw hch
    have hlt := whites_update_gray hm hw
    have hnw : node ∉ stack := fun hm => by
      have := (hs.gray_iff node).mpr hm
      simp [hw] at this
    have hed : ∀ next ∈ succ node, (stack ++ [node] ++ [next]).IsChain (Edge succ) :=
      fun next hne => isChain_append.mpr
        ⟨hch, .singleton next, by simpa [Edge] using hne⟩
    have hex := explore_finds ih (succ node) (hc node hm) hed (hs.push hch) (by omega)
    unfold visit
    generalize explore (visit succ fuel) (stack ++ [node]) _ (succ node) = outcome at hex ⊢
    match outcome, hex with
    | some (.cycle _), hex => exact hex
    | some (.finished _), ⟨hs₁, hk, hd⟩ =>
      refine ⟨hs₁.pop hnw hd, ⟨fun v hv => ?_, fun v hv => ?_⟩, by simp⟩
      · have hne : v ≠ node := fun h => by simp [h] at hv
        simpa [hne] using hk.white v (by simpa [hne] using hv)
      · by_cases hn : v = node
        · simp [hn]
        · rw [Function.update_of_ne hn]
          exact hk.black v (by simpa [hn] using hv)

/-- **The search.** Between two visits, with one unit of fuel for each white node of a set
closed under successors, it reports a genuine cycle or leaves every root grounded. -/
theorem search_finds {fuel} (roots : List α) (hr : ∀ v ∈ roots, v ∈ univ) :
    ∀ {color}, Searching succ color [] → (whites univ color).card ≤ fuel →
    Finds succ color [] roots (search succ fuel color roots) := by
  induction roots with
  | nil => exact fun hs _ => ⟨hs, .refl _, by simp⟩
  | cons node rest ih =>
    intro color hs hf
    obtain ⟨hu, hr⟩ := forall_mem_cons.mp hr
    unfold search
    split
    case isTrue hw =>
      have hv := visit_finds hc fuel color [] node hs hf hu hw (.singleton node)
      generalize visit succ fuel color [] node = outcome at hv ⊢
      match outcome, hv with
      | some (.cycle _), hv => exact hv
      | some (.finished _), ⟨hs₁, hk, hd⟩ =>
        exact (ih hr hs₁ (hk.whites_card_le.trans hf)).cons hk (hd node (by simp))
    case isFalse hn =>
      have hb : color node = .black := by
        cases hc : color node with
        | white => exact absurd hc hn
        | gray => exact absurd ((hs.gray_iff node).mp hc) not_mem_nil
        | black => rfl
      exact (ih hr hs hf).cons (.refl _) hb

end

end

end DepthFirst
