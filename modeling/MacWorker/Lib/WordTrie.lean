import Mathlib.Data.List.Sort
import Mathlib.Data.Finset.Card

/-! # Finding the longest of several words at every place of a text

The words are entered into a trie from their last letter to their first, so that a node
stands for a suffix of a word. Every node has a link to the node of its longest proper
prefix, and knows the longest word it begins with. One pass over a text from its end then
knows, at every place, the longest suffix of a word that stands there, and with it the
longest word.

The nodes are numbered in the order they are made, the root first. Links are made level by
level. -/
namespace WordTrie
open List
variable {α : Type}

structure Node (α : Type) where
  edges : List (α × Nat)
  (failure longest : Nat)

def Node.fresh : Node α := ⟨[], 0, 0⟩

abbrev Trie (α : Type) := List (Node α)

def edgesOf (t : Trie α) (s : Nat) : List (α × Nat) := (t[s]?).elim [] Node.edges

def failure (t : Trie α) (s : Nat) : Nat := (t[s]?).elim 0 Node.failure

def longest (t : Trie α) (s : Nat) : Nat := (t[s]?).elim 0 Node.longest

/-- Changes that leave the edges alone. -/
structure SameEdges (t t' : Trie α) : Prop where
  length : t'.length = t.length
  edges : ∀ s, edgesOf t' s = edgesOf t s

theorem SameEdges.trans {t t' t'' : Trie α} (h : SameEdges t t') (h' : SameEdges t' t'') :
    SameEdges t t'' :=
  ⟨h'.length.trans h.length, fun s => (h'.edges s).trans (h.edges s)⟩

theorem elim_modify {β : Type} {t : Trie α} {k s : Nat} {f : Node α → Node α} {d : β} {get} :
    ((t.modify k f)[s]?).elim d get =
      if k = s then (t[s]?).elim d fun n => get (f n) else (t[s]?).elim d get := by
  rw [getElem?_modify]
  cases t[s]? <;> by_cases hs : k = s <;> simp [hs]

theorem sameEdges_modify (t : Trie α) (k : Nat) {f} (hf : ∀ n, (f n).edges = n.edges) :
    SameEdges t (t.modify k f) where
  length := length_modify _ _ _
  edges s := by
    unfold edgesOf
    rw [elim_modify]
    simp [hf]

theorem longest_modify (t : Trie α) (k s : Nat) (f : Node α → Node α) : longest (t.modify k f) s =
      if k = s then (t[s]?).elim 0 fun n => (f n).longest else longest t s := elim_modify

theorem failure_modify (t : Trie α) (k s : Nat) (f : Node α → Node α) : failure (t.modify k f) s =
      if k = s then (t[s]?).elim 0 fun n => (f n).failure else failure t s := elim_modify

variable [DecidableEq α]

def edge (t : Trie α) (s : Nat) (b : α) : Option Nat := (edgesOf t s).lookup b

/-- Edges are kept in the order of their letters. -/
def Node.withEdge [LE α] [DecidableLE α] (n : Node α) (b : α) (next : Nat) : Node α :=
  { n with edges := n.edges.orderedInsert (fun x y => x.1 ≤ y.1) (b, next) }

def walk [LE α] [DecidableLE α] (t : Trie α) (s : Nat) (b : α) : Trie α × Nat :=
  match edge t s b with
  | some next => (t, next)
  | none => ((t ++ [Node.fresh]).modify s fun n => n.withEdge b t.length, t.length)

def walkWord [LE α] [DecidableLE α] (t : Trie α) (word : List α) : Trie α × Nat :=
  word.foldr (fun b place => walk place.1 place.2 b) (t, 0)

def Node.ending (n : Node α) (length : Nat) : Node α := { n with longest := length }

def addWord [LE α] [DecidableLE α] (t : Trie α) (word : List α) : Trie α :=
  (walkWord t word).1.modify (walkWord t word).2 (·.ending word.length)

/-- Go back along the links until a letter can be followed, or to the root. -/
def back (t : Trie α) (b : α) : Nat → Nat → Nat
  | 0, s => s
  | fuel + 1, s => if s ≠ 0 ∧ edge t s b = none then back t b fuel (failure t s) else s

def advance (t : Trie α) (s : Nat) (b : α) : Nat := (edge t (back t b t.length s) b).getD 0

def Node.linked (n : Node α) (failure longest : Nat) : Node α :=
  { n with failure := failure, longest := max n.longest longest }

def linkChild (s : Nat) (t : Trie α) (e : α × Nat) : Trie α :=
  t.modify e.2 (·.linked (advance t (failure t s) e.1) (longest t (advance t (failure t s) e.1)))

def linkAll : Nat → Trie α → List Nat → Trie α
  | 0, t, _ => t
  | _, t, [] => t
  | fuel + 1, t, s :: queue =>
    linkAll fuel ((edgesOf t s).foldl (linkChild s) t) (queue ++ (edgesOf t s).map (·.2))

def addWords [LE α] [DecidableLE α] (words : List (List α)) : Trie α := words.foldl addWord [.fresh]

def build [LE α] [DecidableLE α] (words : List (List α)) : Trie α :=
  linkAll (addWords words).length (addWords words) ((edgesOf (addWords words) 0).map (·.2))

/-- The node at the start of a text, and for every place the longest word there. -/
def scan (t : Trie α) (text : List α) : Nat × List Nat :=
  text.foldr (fun b found =>
    let s := advance t found.1 b
    (s, longest t s :: found.2)) (0, [])

/-! ## Nodes and the suffixes they stand for -/

def node (t : Trie α) : List α → Option Nat
  | [] => some 0
  | b :: l => (node t l).bind (edge t · b)

/-- The longest of the words that a text begins with, or zero. -/
def longestWord (words : List (List α)) (text : List α) : Nat :=
  ((words.filter (·.isPrefixOf text)).map List.length).foldr max 0

theorem foldr_max_le {ns : List Nat} {n : Nat} : ns.foldr max 0 ≤ n ↔ ∀ m ∈ ns, m ≤ n := by
  induction ns with
  | nil => simp
  | cons m ns ih => simp [ih]

theorem longestWord_le {words : List (List α)} {text : List α} {n : Nat} :
    longestWord words text ≤ n ↔ ∀ word ∈ words, word <+: text → word.length ≤ n := by
  rw [longestWord, foldr_max_le]
  simp only [mem_map, mem_filter, isPrefixOf_iff_prefix, forall_exists_index, and_imp]
  exact ⟨fun h w hw hp => h _ w hw hp rfl, fun h _ w hw hp hm => hm ▸ h w hw hp⟩

theorem le_longestWord {words : List (List α)} {text word : List α} (hw : word ∈ words)
    (hs : word <+: text) : word.length ≤ longestWord words text :=
  longestWord_le.mp le_rfl word hw hs

theorem exists_longestWord {words : List (List α)} {text : List α}
    (h : longestWord words text ≠ 0) :
    ∃ word ∈ words, word <+: text ∧ word.length = longestWord words text := by
  by_contra hn
  simp only [not_exists, not_and] at hn
  have : longestWord words text ≤ longestWord words text - 1 := by
    refine longestWord_le.mpr fun word hw hs => ?_
    have hle := le_longestWord hw hs
    have hne := hn word hw hs
    omega
  omega

structure Tree (t : Trie α) : Prop where
  root : t ≠ []
  bounded : ∀ {s b s'}, edge t s b = some s' → s' < t.length
  down : ∀ {s b s'}, edge t s b = some s' → s < s'
  one : ∀ {l l' s}, node t l = some s → node t l' = some s → l = l'
  letters : ∀ s, ((edgesOf t s).map (·.1)).Nodup

section
variable {t : Trie α} {s : Nat} {b : α} {l : List α}

theorem Tree.node_lt (h : Tree t) (hl : node t l = some s) : s < t.length := by
  cases l with
  | nil =>
    cases hl
    exact length_pos_iff.mpr h.root
  | cons b l =>
    obtain ⟨s', -, hed⟩ := Option.bind_eq_some_iff.mp hl
    exact h.bounded hed

theorem Tree.length_le (h : Tree t) (hl : node t l = some s) : l.length ≤ s := by
  induction l generalizing s with
  | nil => exact Nat.zero_le _
  | cons b l ih =>
    obtain ⟨s', hs', hed⟩ := Option.bind_eq_some_iff.mp hl
    exact Nat.succ_le_of_lt ((ih hs').trans_lt (h.down hed))

theorem Tree.eq_nil_iff (h : Tree t) (hl : node t l = some s) : l = [] ↔ s = 0 := by
  constructor
  · rintro rfl
    exact (Option.some.inj hl).symm
  · rintro rfl
    exact h.one hl rfl

theorem edge_eq_none_of_le (h : t.length ≤ s) : edge t s b = none := by
  rw [edge, edgesOf, getElem?_eq_none h]
  rfl

theorem node_ne_none (h : node t l = some s) : node t l ≠ none := h ▸ Option.some_ne_none s

theorem node_tail (h : node t (b :: l) ≠ none) : node t l ≠ none := by
  intro hn
  rw [node, hn] at h
  exact h rfl

theorem mem_edgesOf (h : Tree t) {s'} : (b, s') ∈ edgesOf t s ↔ edge t s b = some s' := by
  have hn := h.letters s
  rw [edge]
  generalize edgesOf t s = es at hn
  induction es with
  | nil => simp
  | cons e es ih =>
    obtain ⟨c, n⟩ := e
    rw [map_cons, nodup_cons] at hn
    by_cases hc : b = c
    · subst hc
      have hou : (b, s') ∉ es := fun hin => hn.1 (mem_map.mpr ⟨_, hin, rfl⟩)
      simp [hou, eq_comm]
    · have hb : (b == c) = false := by simpa using hc
      simp [lookup_cons, hb, hc, ih hn.2]

/-! ## Adding words -/

variable [LE α] [DecidableLE α]

theorem lookup_orderedInsert {es : List (α × Nat)} {c : α} {next : Nat} (hf : es.lookup b = none) :
    (es.orderedInsert (fun x y => x.1 ≤ y.1) (b, next)).lookup c =
      if c = b then some next else es.lookup c := by
  induction es with
  | nil =>
    by_cases hc : c = b
    · simp [hc]
    · have hb : (c == b) = false := by simpa using hc
      simp [lookup_cons, hc, hb]
  | cons e es ih =>
    obtain ⟨d, n⟩ := e
    by_cases hle : b ≤ d
    · rw [List.orderedInsert, if_pos hle]
      by_cases hc : c = b
      · simp [hc]
      · have hb : (c == b) = false := by simpa using hc
        rw [lookup_cons, hb, if_neg hc]
    · rw [List.orderedInsert, if_neg hle]
      have hbd : (b == d) = false := by
        by_contra heq
        rw [Bool.not_eq_false] at heq
        rw [lookup_cons, heq] at hf
        cases hf
      rw [lookup_cons, hbd] at hf
      rw [lookup_cons, ih hf, lookup_cons]
      by_cases hc : c = b
      · subst hc
        simp [hbd]
      · simp [hc]

theorem edgesOf_walk (hs : s < t.length) (hf : edge t s b = none) (s₀ : Nat) :
    edgesOf (walk t s b).1 s₀ =
      if s₀ = s then (edgesOf t s).orderedInsert (fun x y => x.1 ≤ y.1) (b, t.length)
      else edgesOf t s₀ := by
  rw [walk, hf]
  simp only [edgesOf, getElem?_modify]
  by_cases heq : s₀ = s
  · subst heq
    rw [getElem?_append_left hs, getElem?_eq_getElem hs]
    simp [Node.withEdge]
  · rw [if_neg heq]
    have hne : ¬ s = s₀ := fun h => heq h.symm
    simp only [hne, if_false]
    by_cases hlt : s₀ < t.length
    · rw [getElem?_append_left hlt]
      simp
    · rw [getElem?_append_right (not_lt.mp hlt), getElem?_eq_none (not_lt.mp hlt)]
      cases s₀ - t.length <;> rfl

theorem edge_walk (hs : s < t.length) (hf : edge t s b = none) (s₀ : Nat) (c : α) :
    edge (walk t s b).1 s₀ c = if s₀ = s ∧ c = b then some t.length else edge t s₀ c := by
  rw [edge, edgesOf_walk hs hf]
  by_cases heq : s₀ = s
  · subst heq
    rw [if_pos rfl, lookup_orderedInsert hf]
    simp [edge]
  · rw [if_neg heq, if_neg (fun h => heq h.1)]
    rfl

theorem node_walk (h : Tree t) (hl : node t l = some s) (hf : edge t s b = none) (l₀ : List α) :
    node (walk t s b).1 l₀ = if l₀ = b :: l then some t.length else node t l₀ := by
  have hs := h.node_lt hl
  induction l₀ with
  | nil => rfl
  | cons c l₀ ih =>
    rw [node, ih]
    by_cases hnw : l₀ = b :: l
    · -- Nothing leads on from the new node.
      subst hnw
      have hn : node t (b :: l) = none := by rw [node, hl]; exact hf
      have hlo : ¬ c :: b :: l = b :: l := fun heq => by
        have := congrArg List.length heq
        simp at this
      rw [if_pos rfl, if_neg hlo, node, hn, Option.bind_some, edge_walk hs hf,
        if_neg (fun heq => (Nat.ne_of_lt hs).symm heq.1), edge_eq_none_of_le le_rfl]
      rfl
    · rw [if_neg hnw, node]
      cases hl₀ : node t l₀ with
      | none =>
        have hne : ¬ c :: l₀ = b :: l := fun heq => by
          cases heq
          cases hl.symm.trans hl₀
        rw [if_neg hne]
        rfl
      | some s₀ =>
        rw [Option.bind_some, Option.bind_some, edge_walk hs hf]
        by_cases heq : s₀ = s ∧ c = b
        · obtain ⟨rfl, rfl⟩ := heq
          rw [if_pos ⟨rfl, rfl⟩, h.one hl₀ hl, if_pos rfl]
        · have hne : ¬ c :: l₀ = b :: l := fun hc => by
            cases hc
            cases hl.symm.trans hl₀
            exact heq ⟨rfl, rfl⟩
          rw [if_neg heq, if_neg hne]

theorem elim_walk {get} (hed : ∀ n next, get (n.withEdge b next) = get n) (hf : get .fresh = 0)
    (s₀ : Nat) :
    ((walk t s b).1[s₀]?).elim 0 get = (t[s₀]?).elim 0 get := by
  unfold walk
  split
  · rfl
  · simp only [elim_modify, hed, ite_self]
    by_cases hlt : s₀ < t.length
    · rw [getElem?_append_left hlt]
    · rw [getElem?_append_right (not_lt.mp hlt), getElem?_eq_none (not_lt.mp hlt)]
      cases s₀ - t.length <;> simp [hf]

theorem longest_walk (s₀ : Nat) : longest (walk t s b).1 s₀ = longest t s₀ :=
  elim_walk (fun _ _ => rfl) rfl s₀

theorem failure_walk (s₀ : Nat) : failure (walk t s b).1 s₀ = failure t s₀ :=
  elim_walk (fun _ _ => rfl) rfl s₀

theorem tree_walk (h : Tree t) (hl : node t l = some s) (hed : edge t s b = none) :
    Tree (walk t s b).1 := by
  have hs := h.node_lt hl
  have hn := node_walk h hl hed
  have hle : (walk t s b).1.length = t.length + 1 := by simp [walk, hed]
  refine ⟨?_, ?_, ?_, ?_, ?_⟩
  · exact ne_nil_of_length_pos (by omega)
  · intro s₀ c s' he'
    rw [edge_walk hs hed] at he'
    split at he'
    · cases he'
      omega
    · exact (h.bounded he').trans (by omega)
  · intro s₀ c s' he'
    rw [edge_walk hs hed] at he'
    split at he'
    · rename_i hne
      cases he'
      exact hne.1 ▸ hs
    · exact h.down he'
  · intro l₁ l₂ s₀ h₁ h₂
    rw [hn] at h₁ h₂
    split at h₁ <;> split at h₂
    · simp [*]
    · cases h₁
      exact absurd (h.node_lt h₂) (lt_irrefl _)
    · cases h₂
      exact absurd (h.node_lt h₁) (lt_irrefl _)
    · exact h.one h₁ h₂
  · intro s₀
    rw [edgesOf_walk hs hed]
    split
    · have hpe := (perm_orderedInsert (fun x y : α × Nat => x.1 ≤ y.1) (b, t.length)
        (edgesOf t s)).map (·.1)
      refine hpe.nodup_iff.mpr (nodup_cons.mpr ⟨fun hin => ?_, h.letters s⟩)
      obtain ⟨⟨c, n⟩, hin, hc⟩ := mem_map.mp hin
      cases hc
      rw [(mem_edgesOf h).mp hin] at hed
      cases hed
    · exact h.letters s₀

end

/-! ## Changes that leave the edges alone -/

section
variable {t t' : Trie α}

theorem SameEdges.edge (h : SameEdges t t') (s : Nat) (b : α) : edge t' s b = edge t s b := by
  rw [WordTrie.edge, h.edges]
  rfl

theorem SameEdges.node (h : SameEdges t t') (l : List α) : node t' l = node t l := by
  induction l with
  | nil => rfl
  | cons b l ih =>
    rw [WordTrie.node, ih]
    exact Option.bind_congr fun s _ => h.edge s b

theorem SameEdges.tree (h : SameEdges t t') (ht : Tree t) : Tree t' where
  root := by
    rw [← length_pos_iff, h.length]
    exact length_pos_iff.mpr ht.root
  bounded hed := by
    rw [h.edge] at hed
    rw [h.length]
    exact ht.bounded hed
  down hed := by
    rw [h.edge] at hed
    exact ht.down hed
  one h₁ h₂ := by
    rw [h.node] at h₁ h₂
    exact ht.one h₁ h₂
  letters s := by
    rw [h.edges]
    exact ht.letters s

end

/-! ## The words are in -/

/-- The nodes are those of `nodes`, and the words among them are marked. -/
structure Entered (words : List (List α)) (nodes : List α → Prop) (t : Trie α) : Prop where
  tree : Tree t
  suffixes : ∀ {l}, node t l ≠ none ↔ nodes l
  marked : ∀ {l s}, node t l = some s → longest t s = if l ∈ words then l.length else 0
  unlinked : ∀ s, failure t s = 0

/-- The root, and what a word ends with. -/
def Ending (words : List (List α)) (l : List α) : Prop := l = [] ∨ ∃ word ∈ words, l <:+ word

theorem entered_nil : Entered [] (Ending []) [(Node.fresh : Node α)] := by
  have hed : ∀ (s : Nat) (b : α), edge [Node.fresh] s b = none := by
    intro s b
    cases s with
    | zero => rfl
    | succ s => rfl
  have hn : ∀ l : List α, ∀ s, node [Node.fresh] l = some s → l = [] ∧ s = 0 := by
    intro l s hl
    cases l with
    | nil => exact ⟨rfl, (Option.some.inj hl).symm⟩
    | cons b l =>
      obtain ⟨s', -, hb⟩ := Option.bind_eq_some_iff.mp hl
      rw [hed] at hb
      cases hb
  refine ⟨⟨cons_ne_nil _ _, fun h => ?_, fun h => ?_, fun h h' => ?_, fun s => ?_⟩, ?_, fun h => ?_,
    fun s => ?_⟩
  · rw [hed] at h
    cases h
  · rw [hed] at h
    cases h
  · rw [(hn _ _ h).1, (hn _ _ h').1]
  · cases s <;> exact nodup_nil
  · intro l
    constructor
    · intro h
      obtain ⟨s, hs⟩ := Option.ne_none_iff_exists'.mp h
      exact .inl (hn l s hs).1
    · rintro (rfl | ⟨_, hin, -⟩)
      · exact Option.some_ne_none _
      · exact absurd hin not_mem_nil
  · rw [(hn _ _ h).2, if_neg not_mem_nil]
    rfl
  · cases s <;> rfl

section
variable [LE α] [DecidableLE α] {words : List (List α)} {nodes : List α → Prop} {t : Trie α}

theorem entered_walk {l s} (h : Entered words nodes t) (hw : ∀ word ∈ words, nodes word)
    (hl : node t l = some s) (b : α) :
    Entered words (fun l' => nodes l' ∨ l' = b :: l) (walk t s b).1 ∧
      node (walk t s b).1 (b :: l) = some (walk t s b).2 := by
  have hno : node t (b :: l) = edge t s b := by rw [node, hl]; rfl
  cases hed : edge t s b with
  | some next =>
    rw [walk, hed]
    have hb : nodes (b :: l) := h.suffixes.mp (by simp [hno, hed])
    refine ⟨{ h with suffixes := fun {l'} => h.suffixes.trans ⟨.inl, ?_⟩ }, hno.trans hed⟩
    rintro (hl' | rfl)
    · exact hl'
    · exact hb
  | none =>
    have hn := node_walk h.tree hl hed
    have hnw : b :: l ∉ words := fun hin => h.suffixes.mpr (hw _ hin) (hno.trans hed)
    refine ⟨⟨tree_walk h.tree hl hed, fun {l'} => ?_, fun {l' s'} hs' => ?_, fun s' => ?_⟩, ?_⟩
    · rw [hn]
      split <;> simp [*, h.suffixes]
    · rw [longest_walk]
      rw [hn] at hs'
      split at hs'
      · rename_i heq
        cases hs'
        rw [heq, if_neg hnw, longest, getElem?_eq_none le_rfl]
        rfl
      · exact h.marked hs'
    · rw [failure_walk, h.unlinked]
    · rw [hn, if_pos rfl]
      simp [walk, hed]

theorem entered_walkWord (h : Entered words nodes t) (hw : ∀ word ∈ words, nodes word)
    (word : List α) : Entered words (fun l => nodes l ∨ l <:+ word) (walkWord t word).1 ∧
      node (walkWord t word).1 word = some (walkWord t word).2 := by
  induction word with
  | nil =>
    refine ⟨{ h with suffixes := fun {l} => h.suffixes.trans ⟨.inl, ?_⟩ }, rfl⟩
    rintro (hl | hl)
    · exact hl
    · exact suffix_nil.mp hl ▸ h.suffixes.mp (Option.some_ne_none 0)
  | cons b word ih =>
    obtain ⟨hs, hh⟩ := entered_walk ih.1 (fun w hin => .inl (hw w hin)) ih.2 b
    refine ⟨{ hs with suffixes := hs.suffixes.trans ?_ }, hh⟩
    rw [suffix_cons_iff, or_assoc, or_comm (a := _ <:+ word)]

theorem Entered.add (h : Entered words (Ending words) t) (word : List α) :
    Entered (words ++ [word]) (Ending (words ++ [word])) (addWord t word) := by
  obtain ⟨hg, hh⟩ := entered_walkWord h (fun w hw => .inr ⟨w, hw, suffix_rfl⟩) word
  have hsa := sameEdges_modify (walkWord t word).1 (walkWord t word).2
    (f := (·.ending word.length)) fun _ => rfl
  refine ⟨hsa.tree hg.tree, fun {l} => ?_, fun {l s} hl => ?_, fun s => ?_⟩
  · rw [addWord, hsa.node, hg.suffixes]
    simp [Ending, or_and_right, exists_or, or_assoc]
  · rw [addWord, hsa.node] at hl
    rw [addWord, longest_modify]
    by_cases hp : (walkWord t word).2 = s
    · -- The node of the word itself.
      subst hp
      obtain rfl := hg.tree.one hl hh
      rw [if_pos rfl, getElem?_eq_getElem (hg.tree.node_lt hl), if_pos (by simp)]
      rfl
    · have hne : l ≠ word := by
        rintro rfl
        exact hp (Option.some.inj (hh.symm.trans hl))
      rw [if_neg hp, hg.marked hl]
      simp [hne]
  · rw [addWord, failure_modify]
    change (if _ then failure _ s else failure _ s) = 0
    rw [ite_self, hg.unlinked]

theorem entered_addWords (words : List (List α)) :
    Entered words (Ending words) (addWords words) := by
  induction words using List.reverseRecOn with
  | nil => exact entered_nil
  | append_singleton words word ih =>
    rw [addWords, foldl_append]
    exact ih.add word

end

/-! ## Links -/

/-- The longest proper prefix of a suffix that is a suffix of a word too. -/
structure IsLink (t : Trie α) (l p : List α) : Prop where
  isPrefix : p <+: l
  proper : p ≠ l
  isNode : node t p ≠ none
  most : ∀ q, q <+: l → q ≠ l → node t q ≠ none → q <+: p

theorem IsLink.length_lt {t : Trie α} {l p : List α} (h : IsLink t l p) : p.length < l.length := by
  have hle := h.isPrefix.length_le
  have hne : p.length ≠ l.length := fun heq => h.proper (h.isPrefix.eq_of_length heq)
  omega

def LinkRight (t : Trie α) (l : List α) : Prop :=
  ∀ s, node t l = some s → l ≠ [] → ∃ p, IsLink t l p ∧ node t p = some (failure t s)

section
variable {t : Trie α} (htree : Tree t) {b : α}
include htree

/-- Going back stops at the longest prefix that the letter continues. -/
theorem back_spec {fuel s : Nat} {l : List α} (hl : node t l = some s)
    (hln : ∀ q, q <+: l → LinkRight t q) (hf : l.length ≤ fuel) :
    ∃ p, node t p = some (back t b fuel s) ∧ p <+: l ∧ (p = [] ∨ node t (b :: p) ≠ none) ∧
      ∀ q, q <+: l → node t (b :: q) ≠ none → q <+: p := by
  induction fuel generalizing s l with
  | zero =>
    obtain rfl := length_eq_zero_iff.mp (Nat.le_zero.mp hf)
    exact ⟨[], hl, prefix_rfl, .inl rfl, fun q hq _ => hq⟩
  | succ fuel ih =>
    rw [back]
    by_cases hgo : s ≠ 0 ∧ edge t s b = none
    · rw [if_pos hgo]
      have hne : l ≠ [] := fun h => hgo.1 ((htree.eq_nil_iff hl).mp h)
      obtain ⟨p₀, hli, hp₀⟩ := hln l prefix_rfl s hl hne
      have hsh := hli.length_lt
      obtain ⟨p, hp, hs, hst, hm⟩ := ih hp₀ (fun q hq => hln q (hq.trans hli.isPrefix)) (by omega)
      refine ⟨p, hp, hs.trans hli.isPrefix, hst, fun q hq hn => ?_⟩
      -- The whole of it is not continued by the letter.
      have hqn : q ≠ l := by
        rintro rfl
        rw [node, hl] at hn
        exact hn hgo.2
      exact hm q (hli.most q hq hqn (node_tail hn)) hn
    · rw [if_neg hgo]
      refine ⟨l, hl, prefix_rfl, ?_, fun q hq _ => hq⟩
      by_cases hr : s = 0
      · exact .inl ((htree.eq_nil_iff hl).mpr hr)
      · refine .inr fun hno => hgo ⟨hr, ?_⟩
        rwa [node, hl] at hno

/-- **One more letter** before a text of which `l` is the longest prefix that is a node: the
longest one then. Prefixes that `P` leaves out do not matter. -/
theorem advance_spec {s l text} {P : List α → Prop} (hl : node t l = some s)
    (hli : ∀ q, q <+: l → LinkRight t q) (hpr : l <+: text)
    (hlo : ∀ q, q <+: text → P (b :: q) → node t q ≠ none → q <+: l) :
    ∃ p, node t p = some (advance t s b) ∧ p <+: b :: text ∧ p.length ≤ l.length + 1 ∧
      ∀ q, q <+: b :: text → P q → node t q ≠ none → q <+: p := by
  have hf : l.length ≤ t.length := (htree.length_le hl).trans (htree.node_lt hl).le
  obtain ⟨p, hp, hs, hst, hm⟩ := back_spec htree (b := b) hl hli hf
  have hno : node t (b :: p) = edge t (back t b t.length s) b := by rw [node, hp]; rfl
  cases hed : edge t (back t b t.length s) b with
  | some next =>
    refine ⟨b :: p, ?_, cons_prefix_cons.mpr ⟨rfl, hs.trans hpr⟩,
      Nat.succ_le_succ hs.length_le, fun q hq hP hn => ?_⟩
    · rw [hno, advance, hed]
      rfl
    · rcases prefix_cons_iff.mp hq with rfl | ⟨q, rfl, hqt⟩
      · exact nil_prefix
      · exact cons_prefix_cons.mpr ⟨rfl, hm q (hlo q hqt hP (node_tail hn)) hn⟩
  | none =>
    refine ⟨[], by rw [advance, hed]; rfl, nil_prefix, Nat.zero_le _, fun q hq hP hn => ?_⟩
    rcases prefix_cons_iff.mp hq with rfl | ⟨q, rfl, hqt⟩
    · exact prefix_rfl
    · -- Going back ended at the root, so nothing is continued at all.
      have hp_nil : p = [] := hst.resolve_right fun h => h (hno.trans hed)
      have hq_nil : q = [] := prefix_nil.mp (hp_nil ▸ hm q (hlo q hqt hP (node_tail hn)) hn)
      rw [hq_nil, ← hp_nil] at hn
      exact absurd (hno.trans hed) hn

end

/-- The words that a suffix begins with are the suffix itself and those of its link. -/
theorem longestWord_link {words : List (List α)} {t : Trie α} {l p : List α}
    (hwo : ∀ word ∈ words, node t word ≠ none) (h : IsLink t l p) :
    longestWord words l = max (if l ∈ words then l.length else 0) (longestWord words p) := by
  refine le_antisymm (longestWord_le.mpr fun word hw hs => ?_) (max_le ?_ ?_)
  · by_cases hl : word = l
    · subst hl
      rw [if_pos hw]
      exact le_max_left _ _
    · exact (le_longestWord hw (h.most word hs hl (hwo word hw))).trans (le_max_right _ _)
  · split
    · rename_i hl
      exact le_longestWord hl prefix_rfl
    · exact Nat.zero_le _
  · exact longestWord_le.mpr fun word hw hs =>
      le_longestWord hw (hs.trans h.isPrefix)

/-- The suffixes in `done` have their links and know their longest words; the others only
know whether they are words. -/
structure Linking (words : List (List α)) (t : Trie α) (done : List α → Prop) : Prop where
  tree : Tree t
  suffixes : ∀ {l}, node t l ≠ none ↔ Ending words l
  links : ∀ {l}, done l → LinkRight t l
  lengths : ∀ {l s}, done l → node t l = some s → longest t s = longestWord words l
  marks : ∀ {l s}, ¬ done l → node t l = some s → longest t s = if l ∈ words then l.length else 0

section
variable {words : List (List α)} {t : Trie α} {done : List α → Prop}

theorem Linking.word_node (h : Linking words t done) :
    ∀ word ∈ words, node t word ≠ none := fun word hw =>
  h.suffixes.mpr (.inr ⟨word, hw, suffix_rfl⟩)

theorem longestWord_nil (words : List (List α)) : longestWord words [] = 0 := by
  refine Nat.le_zero.mp (longestWord_le.mpr fun word _ hs => ?_)
  rw [prefix_nil.mp hs]
  rfl

theorem isLink_nil {l} (hl : l ≠ []) (hle : l.length ≤ 1) : IsLink t l [] := by
  refine ⟨List.nil_prefix, hl.symm, nofun, fun q hq hne _ => ?_⟩
  have hlt : q.length ≠ l.length := fun heq => hne (hq.eq_of_length heq)
  have := hq.length_le
  rw [length_eq_zero_iff.mp (by omega : q.length = 0)]

/-- A root's child needs no link: it is to the root already. -/
theorem Entered.linking (h : Entered words (Ending words) t) : Linking words t fun l =>
    l.length ≤ 1 where
  tree := h.tree
  suffixes := h.suffixes
  links hle s _ hl := ⟨[], isLink_nil hl hle, by rw [h.unlinked]; rfl⟩
  lengths {l s} hle hs := by
    rw [h.marked hs]
    by_cases hl : l = []
    · simp [hl, longestWord_nil]
    · have hw : ∀ word ∈ words, node t word ≠ none := fun word hwo =>
        h.suffixes.mpr (.inr ⟨word, hwo, suffix_rfl⟩)
      rw [longestWord_link hw (isLink_nil hl hle), longestWord_nil]
      simp
  marks _ hs := h.marked hs

section
variable (h : Linking words t done)
include h

/-- **Linking a child** makes it done, and changes nothing else. -/
theorem Linking.child {l : List α} {s next : Nat} {b : α} (hl : l ≠ []) (hs : node t l = some s)
    (hle : ∀ l', l'.length ≤ l.length → node t l' ≠ none → done l')
    (hed : edge t s b = some next) (hnw : ¬ done (b :: l)) :
    Linking words (linkChild s t (b, next)) (fun l' => done l' ∨ l' = b :: l) ∧
      SameEdges t (linkChild s t (b, next)) := by
  have hli : ∀ l', l'.length ≤ l.length → LinkRight t l' := fun l' hlen s' hs' =>
    h.links (hle l' hlen (node_ne_none hs')) s' hs'
  have hnx : node t (b :: l) = some next := by
    rw [node, hs]
    exact hed
  have hlt := h.tree.node_lt hnx
  obtain ⟨p₀, hl₀, hp₀⟩ := hli l le_rfl s hs hl
  have hsr := hl₀.length_lt
  have hpr : ∀ q, q <+: p₀ → LinkRight t q := fun q hq => hli q (hq.length_le.trans hsr.le)
  obtain ⟨p, hp, hsh, hpl, hmo⟩ := advance_spec h.tree (P := (· ≠ b :: l)) hp₀ hpr hl₀.isPrefix
    fun q hq hne => hl₀.most q hq fun heq => hne (congrArg _ heq)
  have hln : IsLink t (b :: l) p := by
    refine ⟨hsh, ?_, node_ne_none hp, hmo⟩
    rintro rfl
    rw [length_cons] at hpl
    omega
  have hsa : SameEdges t (linkChild s t (b, next)) := sameEdges_modify _ _ fun _ => rfl
  have hot : ∀ {l' s'}, l' ≠ b :: l → node t l' = some s' → next ≠ s' := by
    rintro l' s' hne hs' rfl
    exact hne (h.tree.one hs' hnx)
  have hf : ∀ s', next ≠ s' → failure (linkChild s t (b, next)) s' = failure t s' :=
    fun s' hne => by rw [linkChild, failure_modify, if_neg hne]
  have hlo : ∀ s', next ≠ s' → longest (linkChild s t (b, next)) s' = longest t s' :=
    fun s' hne => by rw [linkChild, longest_modify, if_neg hne]
  have hil : ∀ {l' p'}, IsLink t l' p' → IsLink (linkChild s t (b, next)) l' p' := by
    intro l' p' h'
    exact ⟨h'.isPrefix, h'.proper, by rw [hsa.node]; exact h'.isNode,
      fun q hq hne hn => h'.most q hq hne (by rwa [hsa.node] at hn)⟩
  refine ⟨⟨hsa.tree h.tree, fun {l'} => ?_, ?_, ?_, ?_⟩, hsa⟩
  · rw [hsa.node]
    exact h.suffixes
  · intro l' hd s' hs' hne
    rw [hsa.node] at hs'
    by_cases heq : l' = b :: l
    · subst heq
      cases hnx.symm.trans hs'
      refine ⟨p, hil hln, ?_⟩
      rw [hsa.node, hp, linkChild, failure_modify, if_pos rfl, getElem?_eq_getElem hlt]
      rfl
    · obtain ⟨p', hl', hp'⟩ := h.links (hd.resolve_right heq) s' hs' hne
      refine ⟨p', hil hl', ?_⟩
      rw [hsa.node, hf s' (hot heq hs'), hp']
  · intro l' s' hd hs'
    rw [hsa.node] at hs'
    by_cases heq : l' = b :: l
    · subst heq
      cases hnx.symm.trans hs'
      have hm := h.marks hnw hnx
      have hlk : longest t (advance t (failure t s) b) = longestWord words p :=
        h.lengths (hle p (by omega) (node_ne_none hp)) hp
      rw [longest, getElem?_eq_getElem hlt] at hm
      rw [linkChild, longest_modify, if_pos rfl, getElem?_eq_getElem hlt,
        longestWord_link h.word_node hln, ← hm, ← hlk]
      rfl
    · rw [hlo s' (hot heq hs')]
      exact h.lengths (hd.resolve_right heq) hs'
  · intro l' s' hd hs'
    rw [hsa.node] at hs'
    obtain ⟨hol, heq⟩ := not_or.mp hd
    rw [hlo s' (hot heq hs')]
    exact h.marks hol hs'

theorem Linking.congr {done'}
    (hif : ∀ l, node t l ≠ none → (done l ↔ done' l)) : Linking words t done' := by
  exact ⟨h.tree, h.suffixes,
    fun hd s hs => h.links ((hif _ (node_ne_none hs)).mpr hd) s hs,
    fun hd hs => h.lengths ((hif _ (node_ne_none hs)).mpr hd) hs,
    fun hd hs => h.marks (fun hol => hd ((hif _ (node_ne_none hs)).mp hol)) hs⟩

/-- **Linking the children** of a node, one after the other. -/
theorem Linking.children {l : List α} {s : Nat} (hl : l ≠ []) (es : List (α × Nat))
    (hs : node t l = some s)
    (hlv : ∀ l', l'.length ≤ l.length → node t l' ≠ none → done l')
    (hed : ∀ e ∈ es, edge t s e.1 = some e.2) (hle : (es.map (·.1)).Nodup)
    (hnw : ∀ e ∈ es, ¬ done (e.1 :: l)) :
    Linking words (es.foldl (linkChild s) t) (fun l' => done l' ∨ ∃ e ∈ es, l' = e.1 :: l) ∧
      SameEdges t (es.foldl (linkChild s) t) := by
  induction es generalizing t done with
  | nil => exact ⟨h.congr fun l' _ => by simp, rfl, fun _ => rfl⟩
  | cons e es ih =>
    obtain ⟨b, next⟩ := e
    rw [map_cons, nodup_cons] at hle
    obtain ⟨hc, hsa⟩ := h.child hl hs hlv (hed _ mem_cons_self) (hnw _ mem_cons_self)
    obtain ⟨hr, hs'⟩ := ih hc (by rw [hsa.node]; exact hs)
      (fun l' hln hn => .inl (hlv l' hln (by rwa [hsa.node] at hn)))
      (fun e he => by rw [hsa.edge]; exact hed e (mem_cons_of_mem _ he)) hle.2
      (fun e he hd => by
        rcases hd with hd | heq
        · exact hnw e (mem_cons_of_mem _ he) hd
        · exact hle.1 (mem_map.mpr ⟨e, he, (List.cons.inj heq).1⟩))
    refine ⟨hr.congr fun l' _ => ?_, hsa.trans hs'⟩
    simp [or_assoc]

end

/-! ## The queue

It holds suffixes in the order of their lengths. What went through it or waits in it is the
root and the successors of what went through. -/

structure Queued (t : Trie α) (past queue : List (List α)) : Prop where
  ordered : queue.Pairwise fun l l' => l.length ≤ l'.length ∧ l'.length ≤ l.length + 1
  nodup : (past ++ queue).Nodup
  root : [] ∈ past ++ queue
  successors : ∀ b l, b :: l ∈ past ++ queue ↔ l ∈ past ∧ node t (b :: l) ≠ none

section
variable {past queue : List (List α)}

/-- Everything is met that is not longer than what waits. -/
theorem Queued.reached (h : Queued t past queue) {n} (hq : ∀ l ∈ queue, n ≤ l.length) :
    ∀ l : List α, l.length ≤ n → node t l ≠ none → l ∈ past ++ queue
  | [], _, _ => h.root
  | b :: l, hle, hn => by
    rw [length_cons] at hle
    have hin := h.reached hq l (by omega) (node_tail hn)
    refine (h.successors b l).mpr ⟨(mem_append.mp hin).resolve_right fun hw => ?_, hn⟩
    have := hq l hw
    omega

theorem mem_successors (htree : Tree t) {l l' : List α} {s} (hs : node t l = some s) :
    l' ∈ (edgesOf t s).map (fun e => e.1 :: l) ↔ ∃ b, l' = b :: l ∧ node t (b :: l) ≠ none := by
  simp only [mem_map, Prod.exists, mem_edgesOf htree, node, hs, Option.bind_some,
    Option.ne_none_iff_exists']
  grind

/-- The first of the queue is taken and its successors are put at the end. -/
theorem Queued.step (htree : Tree t) {l s} (h : Queued t past (l :: queue))
    (hs : node t l = some s) :
    Queued t (past ++ [l]) (queue ++ (edgesOf t s).map fun e => e.1 :: l) := by
  obtain ⟨hfi, hor⟩ := pairwise_cons.mp h.ordered
  have hpa : l ∉ past := fun hpa => (nodup_append.mp h.nodup).2.2 l hpa l mem_cons_self rfl
  have hli : past ++ [l] ++ (queue ++ (edgesOf t s).map fun e => e.1 :: l) =
      past ++ l :: queue ++ (edgesOf t s).map fun e => e.1 :: l := by simp
  refine ⟨pairwise_append.mpr ⟨hor, ?_, ?_⟩, ?_, ?_, fun b l' => ?_⟩
  · exact pairwise_map.mpr (pairwise_of_forall fun _ _ => by simp)
  · intro x hx y hy
    obtain ⟨b, rfl, -⟩ := (mem_successors htree hs).mp hy
    have := hfi x hx
    rw [length_cons]
    omega
  · rw [hli]
    refine nodup_append.mpr ⟨h.nodup, ?_, ?_⟩
    · have hm : (edgesOf t s).map (fun e => e.1 :: l) = ((edgesOf t s).map (·.1)).map (· :: l) := by
        simp
      rw [hm]
      exact (htree.letters s).map fun a b hab => (List.cons.inj hab).1
    · rintro x hx y hy rfl
      -- A successor of what is only now taken was not met before.
      obtain ⟨b, rfl, -⟩ := (mem_successors htree hs).mp hy
      exact hpa ((h.successors b l).mp hx).1
  · rw [hli]
    exact mem_append_left _ h.root
  · rw [hli, mem_append, h.successors, mem_successors htree hs, mem_append, mem_singleton]
    grind

theorem Queued.past_le (htree : Tree t) (h : Queued t past queue) : past.length ≤ t.length := by
  have hp : ∀ l ∈ past, node t l = some ((node t l).getD 0) := by
    intro l hin
    cases hn : node t l with
    | some s => rfl
    | none =>
      cases l with
      | nil => cases hn
      | cons b l => exact absurd hn ((h.successors b l).mp (mem_append_left _ hin)).2
  have hn : (past.map fun l => (node t l).getD 0).Nodup := by
    refine List.Nodup.map_on (fun l hl l' hl' heq => ?_) (nodup_append.mp h.nodup).1
    exact htree.one (hp l hl) (heq ▸ hp l' hl')
  have hsu : (past.map fun l => (node t l).getD 0) ⊆ range t.length := by
    intro s hs
    obtain ⟨l, hl, rfl⟩ := mem_map.mp hs
    exact mem_range.mpr (htree.node_lt (hp l hl))
  simpa using (hn.subperm hsu).length_le

end

theorem linkAll_spec {fuel past waiting queue}
    (h : Linking words t (· ∈ past ++ waiting)) (hq : Queued t past waiting) (hr : [] ∈ past)
    (hf : past.length + fuel = t.length + 1) (hqu : waiting.map (node t) = queue.map some) :
    Linking words (linkAll fuel t queue) fun _ => True := by
  induction fuel generalizing t past waiting queue with
  | zero =>
    have := hq.past_le h.tree
    omega
  | succ fuel ih =>
    cases waiting with
    | nil =>
      obtain rfl : queue = [] := by simpa using hqu
      exact h.congr fun l hn => iff_of_true (hq.reached (fun _ h => nomatch h) l le_rfl hn) trivial
    | cons l waiting =>
      cases queue with
      | nil => cases hqu
      | cons s queue =>
        rw [map_cons, map_cons, List.cons.injEq] at hqu
        have hdi := (nodup_append.mp hq.nodup).2.2
        have hsh : ∀ l' ∈ l :: waiting, l.length ≤ l'.length :=
          forall_mem_cons.mpr ⟨le_rfl, fun l' hin => ((pairwise_cons.mp hq.ordered).1 l' hin).1⟩
        have hst := hq.step h.tree hqu.1
        have hed : ∀ e ∈ edgesOf t s, edge t s e.1 = some e.2 :=
          fun e he => (mem_edgesOf h.tree).mp he
        obtain ⟨hln, hs⟩ := h.children (fun hl => hdi [] hr l mem_cons_self hl.symm)
          (edgesOf t s) hqu.1 (hq.reached hsh) hed (h.tree.letters s)
          (fun e _ hin => hdi l ((hq.successors _ l).mp hin).1 l mem_cons_self rfl)
        have hn : node ((edgesOf t s).foldl (linkChild s) t) = node t := funext hs.node
        refine ih (hln.congr fun l' _ => ?_) ⟨hst.ordered, hst.nodup, hst.root, ?_⟩
          (mem_append_left _ hr) (by rw [hs.length, length_append, length_singleton]; omega) ?_
        · simp [or_assoc, or_left_comm, eq_comm]
        · rw [hn]
          exact hst.successors
        · rw [hn, map_append, map_append, hqu.2, map_map, map_map]
          refine congrArg _ (map_congr_left fun e he => ?_)
          change (node t l).bind (edge t · e.1) = some e.2
          rw [hqu.1]
          exact hed e he

theorem linking_build [LE α] [DecidableLE α] (words : List (List α)) :
    Linking words (build words) fun _ => True := by
  have h := entered_addWords words
  have hs : Queued (addWords words) [] [[]] :=
    ⟨pairwise_singleton _ _, nodup_singleton _, mem_cons_self, by simp⟩
  have hq := hs.step h.tree (s := 0) rfl
  rw [nil_append, nil_append] at hq
  refine linkAll_spec (h.linking.congr fun l hn => ?_) hq mem_cons_self (Nat.add_comm ..) ?_
  · have hon : ∀ l ∈ (edgesOf (addWords words) 0).map (fun e => [e.1]), l.length = 1 :=
      forall_mem_map.mpr fun _ _ => rfl
    refine ⟨fun hle => hq.reached (fun l hin => (hon l hin).ge) l hle hn, fun hin => ?_⟩
    rcases mem_cons.mp hin with rfl | hin
    · exact Nat.zero_le 1
    · exact (hon l hin).le
  · rw [map_map, map_map]
    exact map_congr_left fun e he => (mem_edgesOf h.tree).mp he

/-! ## Scanning a text -/

theorem scan_length (t : Trie α) (text : List α) : (scan t text).2.length = text.length := by
  induction text with
  | nil => rfl
  | cons b text ih =>
    change (scan t text).2.length + 1 = _
    rw [ih, length_cons]

/-- **At every place of a text the scan knows the longest word there.** -/
theorem scan_spec (h : Linking words t fun _ => True) (text : List α) :
    (∃ p, node t p = some (scan t text).1 ∧ p <+: text ∧
      ∀ q, q <+: text → node t q ≠ none → q <+: p) ∧
    ∀ i, (scan t text).2.getD i 0 = longestWord words (text.drop i) := by
  induction text with
  | nil =>
    refine ⟨⟨[], rfl, prefix_rfl, fun q hq _ => hq⟩, fun i => ?_⟩
    rw [drop_nil, longestWord_nil]
    rfl
  | cons b text ih =>
    obtain ⟨⟨p, hp, hs, hm⟩, hsp⟩ := ih
    obtain ⟨p', hp', hs', -, hl⟩ := advance_spec h.tree (b := b) (P := fun _ => True) hp
      (fun q _ => h.links trivial) hs fun q hq _ => hm q hq
    replace hl : ∀ q, q <+: b :: text → node t q ≠ none → q <+: p' := fun q hq => hl q hq trivial
    refine ⟨⟨p', hp', hs', hl⟩, fun i => ?_⟩
    cases i with
    | zero =>
      change longest t (advance t (scan t text).1 b) = _
      rw [h.lengths trivial hp', drop_zero]
      refine le_antisymm (longestWord_le.mpr fun word hw hpr => ?_)
        (longestWord_le.mpr fun word hw hpr => ?_)
      · exact le_longestWord hw (hpr.trans hs')
      · exact le_longestWord hw (hl word hpr (h.word_node word hw))
    | succ i => exact hsp i

end

end WordTrie
