import MacWorker.Base
import MacWorker.Lib.DepthFirst
import Mathlib.Data.String.Basic

/-! # The dependency graph of a batch

A batch is a list of tasks that name each other: through `depends_on`, and through a base
of the form `from:<id>`, which makes a task start from its parent's result.
`validateBatchGraph` checks the whole list before anything is submitted, and reports every
fault it meets: ids first, then the dependencies of each task, and last a cycle.

**`batchGraph_exact`**: the report is empty exactly for the batches whose ids are well
formed and distinct, whose dependencies all name a task of the batch and whose graph has
no cycle; a reported cycle is one. -/
namespace MacWorker.Dag
open List
open Std (TreeMap)
open DepthFirst Fallible Relation

structure GraphNode where
  id : Option String
  dependsOn : List String
  base : String
  deriving DecidableEq

inductive IssueKind where
  | invalidId
  | duplicateId
  | invalidDependency
  | unknownDependency
  | cycle
  deriving DecidableEq

structure GraphIssue where
  kind : IssueKind
  message : String
  deriving DecidableEq

def isGraphIdByte (byte : UInt8) : Bool :=
  isAsciiLowercase byte || isAsciiDigit byte || (bytes "_-").contains byte

def WellFormedId (id : String) : Prop :=
  bytes id ≠ [] ∧ (bytes id).length ≤ 64 ∧ (bytes id).all isGraphIdByte = true

instance (id : String) : Decidable (WellFormedId id) :=
  inferInstanceAs (Decidable (_ ∧ _ ∧ _))

def validateGraphId (id : String) : Except String Unit :=
  ensure (WellFormedId id) "batch task id must be a short lowercase identifier"

/-- The parent named by a base `from:<id>`; an empty id names nobody. -/
def parseFromBase (base : String) : Option String :=
  (("from:".toList.isPrefixOf? base.toList).map String.ofList).filter (· ≠ "")

/-! ## The two passes over the tasks -/

/-- The state of the first pass: the ids met so far, with their positions. -/
structure IdScan where
  issues : List GraphIssue
  ids : TreeMap String Nat

def IdScan.visit (scan : IdScan) (entry : GraphNode × Nat) : IdScan :=
  match entry.1.id with
  | none => scan
  | some id =>
    match validateGraphId id with
    | .error message => { scan with issues := scan.issues ++ [⟨.invalidId, message⟩] }
    | .ok _ =>
      { issues :=
          if id ∈ scan.ids then
            scan.issues ++ [⟨.duplicateId, "duplicate batch task id " ++ id⟩]
          else scan.issues
        ids := scan.ids.insert id entry.2 }

variable (tasks : List GraphNode)

def scanIds : IdScan :=
  tasks.zipIdx.foldl IdScan.visit ⟨[], ∅⟩

/-- What a task depends on: its list, and the parent of its base if the list
does not have it already. -/
def GraphNode.dependencies (task : GraphNode) : List String :=
  match parseFromBase task.base with
  | some parent =>
    if parent ∈ task.dependsOn then task.dependsOn else task.dependsOn ++ [parent]
  | none => task.dependsOn

/-- The fault of naming a task the batch does not have. -/
def unknownTask (ids : TreeMap String Nat) (name message : String) : List GraphIssue :=
  if name ∈ ids then [] else [⟨.unknownDependency, message⟩]

def missingParent (ids : TreeMap String Nat) (id parent : String) : List GraphIssue :=
  unknownTask ids parent ("task " ++ id ++ " uses from:" ++ parent ++ " but that id is missing")

def missingDependency (ids : TreeMap String Nat) (id dep : String) : List GraphIssue :=
  unknownTask ids dep ("task " ++ id ++ " depends on unknown id " ++ dep)

/-- The faults of one task, given the ids of the batch. -/
def GraphNode.faults (ids : TreeMap String Nat) (task : GraphNode) : List GraphIssue :=
  match task.id with
  | none =>
    if task.dependsOn ≠ [] ∨ (parseFromBase task.base).isSome then
      [⟨.invalidDependency, "depends_on and from: require a task id"⟩]
    else []
  | some id =>
    (parseFromBase task.base).toList.flatMap (missingParent ids id) ++
      task.dependencies.flatMap (missingDependency ids id)

structure DependencyScan where
  issues : List GraphIssue
  adjacency : TreeMap String (List String)

/-- A task without an id gets no node; a later task replaces the node of an
earlier one with the same id. -/
def DependencyScan.visit (ids : TreeMap String Nat) (scan : DependencyScan) (task : GraphNode) :
    DependencyScan where
  issues := scan.issues ++ task.faults ids
  adjacency :=
    match task.id with
    | none => scan.adjacency
    | some id => scan.adjacency.insert id task.dependencies

def scanDependencies (ids : TreeMap String Nat) (issues : List GraphIssue)
    (tasks : List GraphNode) : DependencyScan :=
  tasks.foldl (DependencyScan.visit ids) ⟨issues, ∅⟩

/-! ## Cycles -/

/-- A node that is nobody's key has no edges. -/
def edges (graph : TreeMap String (List String)) (node : String) : List String :=
  (graph[node]?).getD []

def graphNodes (graph : TreeMap String (List String)) : List String :=
  graph.toList.flatMap fun entry => entry.1 :: entry.2

theorem keys_mem_graphNodes {graph node} (h : node ∈ graph.keys) : node ∈ graphNodes graph := by
  rw [← TreeMap.map_fst_toList_eq_keys] at h
  obtain ⟨entry, hen, rfl⟩ := mem_map.mp h
  exact mem_flatMap.mpr ⟨entry, hen, mem_cons_self⟩

theorem edges_mem_graphNodes {graph node next} (h : next ∈ edges graph node) :
    next ∈ graphNodes graph := by
  unfold edges at h
  cases hn : graph[node]? with
  | none => simp [hn] at h
  | some deps =>
    rw [hn, Option.getD_some] at h
    have hen := TreeMap.mem_toList_iff_getElem?_eq_some.mpr hn
    exact mem_flatMap.mpr ⟨_, hen, mem_cons_of_mem _ h⟩

/-- The search from every key in order, all nodes white. -/
def cycleSearch (graph : TreeMap String (List String)) : Option (Result String) :=
  search (edges graph) (graphNodes graph).length (fun _ => .white) graph.keys

theorem cycleSearch_finds (graph : TreeMap String (List String)) :
    Finds (edges graph) (fun _ => .white) [] graph.keys (cycleSearch graph) := by
  have hr : ∀ v ∈ graph.keys, v ∈ (graphNodes graph).toFinset :=
    fun v hv => mem_toFinset.mpr (keys_mem_graphNodes hv)
  have hc : ∀ v ∈ (graphNodes graph).toFinset, ∀ w ∈ edges graph v,
      w ∈ (graphNodes graph).toFinset :=
    fun v _ w hw => mem_toFinset.mpr (edges_mem_graphNodes hw)
  refine search_finds hc graph.keys hr ⟨by simp, .nil, by simp⟩ ?_
  exact (Finset.card_filter_le _ _).trans (toFinset_card_le _)

theorem cycleSearch_returns (graph : TreeMap String (List String)) :
    ∃ result, cycleSearch graph = some result := by
  have hf := cycleSearch_finds graph
  cases hs : cycleSearch graph with
  | none => rw [hs] at hf; exact hf.elim
  | some result => exact ⟨result, rfl⟩

def detectCycle (graph : TreeMap String (List String)) : Option (List String) :=
  match (cycleSearch graph).get (Option.isSome_iff_exists.mpr (cycleSearch_returns graph)) with
  | .cycle path => some path
  | .finished _ => none

def cycleIssues (graph : TreeMap String (List String)) : List GraphIssue :=
  match detectCycle graph with
  | some cycle => [⟨.cycle, "cyclic depends_on: " ++ " -> ".intercalate cycle⟩]
  | none => []

def validateBatchGraph : List GraphIssue :=
  let scan := scanIds tasks
  let graph := scanDependencies scan.ids scan.issues tasks
  graph.issues ++ cycleIssues graph.adjacency

example : validateBatchGraph [⟨some "a", ["b"], "HEAD"⟩, ⟨some "b", [], "from:a"⟩] =
    [⟨.cycle, "cyclic depends_on: a -> b -> a"⟩] := by decide

example : validateBatchGraph [⟨some "a", [], "HEAD"⟩, ⟨some "b", ["a"], "from:a"⟩] = [] := by
  decide

/-! ## What the batch declares -/

def Declares (task : GraphNode) (parent : String) : Prop :=
  parent ∈ task.dependsOn ∨ parent ≠ "" ∧ task.base = "from:" ++ parent

def DependsOn (a b : String) : Prop :=
  ∃ task ∈ tasks, task.id = some a ∧ Declares task b

def batchIds : List String := tasks.filterMap (·.id)

structure ValidBatch (tasks : List GraphNode) : Prop where
  wellFormed : ∀ id ∈ batchIds tasks, WellFormedId id
  distinct : (batchIds tasks).Nodup
  anonymous : ∀ task ∈ tasks, task.id = none → ∀ parent, ¬ Declares task parent
  known : ∀ a b, DependsOn tasks a b → b ∈ batchIds tasks
  acyclic : ∀ a, ¬ TransGen (DependsOn tasks) a a

theorem parseFromBase_eq_some {base parent} :
    parseFromBase base = some parent ↔ parent ≠ "" ∧ base = "from:" ++ parent := by
  unfold parseFromBase
  rw [Option.filter_eq_some_iff, Option.map_eq_some_iff]
  constructor
  · rintro ⟨⟨rest, hr, rfl⟩, hne⟩
    refine ⟨by simpa using hne, ?_⟩
    have hs := isPrefixOf?_eq_some_iff_append_eq.mp hr
    rw [← String.ofList_toList (s := base), ← hs, String.ofList_append, String.ofList_toList]
  · rintro ⟨hne, rfl⟩
    refine ⟨⟨parent.toList, ?_, String.ofList_toList⟩, by simpa using hne⟩
    exact isPrefixOf?_eq_some_iff_append_eq.mpr String.toList_append.symm

theorem mem_dependencies {task parent} : parent ∈ task.dependencies ↔ Declares task parent := by
  unfold GraphNode.dependencies Declares
  rw [← parseFromBase_eq_some]
  split
  · rename_i p hp
    split
    · rename_i hm
      rw [hp]
      exact ⟨.inl, fun h => h.elim id fun he => Option.some.inj he ▸ hm⟩
    · simp [hp, eq_comm]
  · rename_i hn
    simp [hn]

/-! ## The first pass -/

theorem IdScan.visit_cases (scan : IdScan) (entry : GraphNode × Nat) :
    entry.1.id = none ∧ scan.visit entry = scan ∨
    (∃ id message, entry.1.id = some id ∧ ¬ WellFormedId id ∧
      scan.visit entry = { scan with issues := scan.issues ++ [⟨.invalidId, message⟩] }) ∨
    (∃ id, entry.1.id = some id ∧ WellFormedId id ∧ id ∈ scan.ids ∧
      scan.visit entry = {
        issues := scan.issues ++ [⟨.duplicateId, "duplicate batch task id " ++ id⟩]
        ids := scan.ids.insert id entry.2 }) ∨
    ∃ id, entry.1.id = some id ∧ WellFormedId id ∧ id ∉ scan.ids ∧
      scan.visit entry = { scan with ids := scan.ids.insert id entry.2 } := by
  unfold IdScan.visit
  cases hid : entry.1.id with
  | none => exact .inl ⟨rfl, rfl⟩
  | some id =>
    by_cases hwf : WellFormedId id
    · simp only [validateGraphId, ensure, if_pos hwf]
      by_cases hd : id ∈ scan.ids
      · exact .inr (.inr (.inl ⟨id, rfl, hwf, hd, by rw [if_pos hd]⟩))
      · exact .inr (.inr (.inr ⟨id, rfl, hwf, hd, by rw [if_neg hd]⟩))
    · simp only [validateGraphId, ensure, if_neg hwf]
      exact .inr (.inl ⟨id, _, rfl, hwf, rfl⟩)

theorem mem_foldl_visit {entries : List (GraphNode × Nat)} {id : String} (scan : IdScan) :
    id ∈ (entries.foldl IdScan.visit scan).ids ↔
      id ∈ scan.ids ∨ id ∈ batchIds (entries.map Prod.fst) ∧ WellFormedId id := by
  induction entries generalizing scan with
  | nil => simp [batchIds]
  | cons entry rest ih =>
    rw [foldl_cons, ih]
    obtain ⟨hid, hv⟩ | ⟨a, _, hid, hwf, hv⟩ | ⟨a, hid, hwf, _, hv⟩ | ⟨a, hid, hwf, _, hv⟩ :=
      scan.visit_cases entry <;>
    simp only [hv, batchIds, map_cons, filterMap_cons, hid, TreeMap.mem_insert,
      compare_eq_iff_eq, mem_cons] <;> grind

/-- The pass adds no issue exactly when every id is well formed and new. -/
theorem foldl_visit_issues {entries : List (GraphNode × Nat)} (scan : IdScan) :
    (entries.foldl IdScan.visit scan).issues = [] ↔
      scan.issues = [] ∧ (∀ id ∈ batchIds (entries.map Prod.fst), WellFormedId id ∧ id ∉ scan.ids) ∧
        (batchIds (entries.map Prod.fst)).Nodup := by
  induction entries generalizing scan with
  | nil => simp [batchIds]
  | cons entry rest ih =>
    rw [foldl_cons, ih]
    obtain ⟨hid, hv⟩ | ⟨a, _, hid, hwf, hv⟩ | ⟨a, hid, hwf, hd, hv⟩ | ⟨a, hid, hwf, hd, hv⟩ :=
      scan.visit_cases entry <;>
    simp only [hv, batchIds, map_cons, filterMap_cons, hid, TreeMap.mem_insert,
      compare_eq_iff_eq, mem_cons, nodup_cons, append_eq_nil_iff] <;> grind

theorem scanIds_issues {tasks : List GraphNode} : (scanIds tasks).issues = [] ↔
      (∀ id ∈ batchIds tasks, WellFormedId id) ∧ (batchIds tasks).Nodup := by
  unfold scanIds
  rw [foldl_visit_issues, zipIdx_map_fst]
  simp

theorem mem_scanIds {tasks : List GraphNode} {id : String} :
    id ∈ (scanIds tasks).ids ↔ id ∈ batchIds tasks ∧ WellFormedId id := by
  unfold scanIds
  rw [mem_foldl_visit, zipIdx_map_fst]
  simp

/-! ## The second pass -/

section
variable {tasks : List GraphNode} {ids : TreeMap String Nat}

theorem unknownTask_eq_nil {name message} : unknownTask ids name message = [] ↔ name ∈ ids := by
  by_cases h : name ∈ ids <;> simp [unknownTask, h]

theorem unknownTask_kind {name message issue} (h : issue ∈ unknownTask ids name message) :
    issue.kind = .unknownDependency := by
  unfold unknownTask at h
  split at h
  · cases h
  · rw [mem_singleton.mp h]

theorem faults_eq_nil_of_none {task} (hid : task.id = none) :
    task.faults ids = [] ↔ ∀ parent, ¬ Declares task parent := by
  unfold GraphNode.faults
  rw [hid]
  simp only [ite_eq_right_iff, cons_ne_nil, imp_false, not_or, not_not,
    Option.not_isSome_iff_eq_none]
  constructor
  · rintro ⟨hni, hn⟩ parent (hm | hb)
    · simp [hni] at hm
    · simp [parseFromBase_eq_some.mpr hb] at hn
  · intro h
    refine ⟨eq_nil_iff_forall_not_mem.mpr fun p hp => h p (.inl hp), ?_⟩
    rw [Option.eq_none_iff_forall_ne_some]
    exact fun p hp => h p (.inr (parseFromBase_eq_some.mp hp))

/-- The check of the parent repeats a check of the dependencies, which list
it. -/
theorem faults_eq_nil_of_some {task id} (hid : task.id = some id) :
    task.faults ids = [] ↔ ∀ parent, Declares task parent → parent ∈ ids := by
  unfold GraphNode.faults
  rw [hid]
  simp only [append_eq_nil_iff, flatMap_eq_nil_iff, missingParent, missingDependency,
    unknownTask_eq_nil, mem_dependencies]
  constructor
  · exact fun h => h.2
  · intro h
    refine ⟨fun p hp => h p (.inr (parseFromBase_eq_some.mp ?_)), h⟩
    simpa using hp

variable (scan : DependencyScan)

theorem foldl_visit_dependencies_issues : (tasks.foldl (DependencyScan.visit ids) scan).issues =
      scan.issues ++ tasks.flatMap (GraphNode.faults ids) := by
  induction tasks generalizing scan with
  | nil => simp
  | cons task rest ih =>
    rw [foldl_cons, ih, flatMap_cons, ← append_assoc]
    rfl

theorem visit_adjacency (task : GraphNode) (a : String) : (scan.visit ids task).adjacency[a]? =
      if task.id = some a then some task.dependencies else scan.adjacency[a]? := by
  unfold DependencyScan.visit
  cases hid : task.id with
  | none => simp
  | some id => simp [TreeMap.getElem?_insert]

theorem adjacency_sound {a deps}
    (h : (tasks.foldl (DependencyScan.visit ids) scan).adjacency[a]? = some deps) :
    scan.adjacency[a]? = some deps ∨
      ∃ task ∈ tasks, task.id = some a ∧ deps = task.dependencies := by
  induction tasks generalizing scan with
  | nil => exact .inl h
  | cons task rest ih =>
    rcases ih (scan.visit ids task) h with hv | ⟨t, ht, hf⟩
    · rw [visit_adjacency] at hv
      split at hv
      · rename_i hid
        exact .inr ⟨task, mem_cons_self, hid, (Option.some.inj hv).symm⟩
      · exact .inl hv
    · exact .inr ⟨t, mem_cons_of_mem task ht, hf⟩

theorem adjacency_complete {a} (h : a ∈ batchIds tasks ∨ scan.adjacency[a]? ≠ none) :
    (tasks.foldl (DependencyScan.visit ids) scan).adjacency[a]? ≠ none := by
  induction tasks generalizing scan with
  | nil => simpa [batchIds] using h
  | cons task rest ih =>
    apply ih
    rw [visit_adjacency]
    by_cases hid : task.id = some a
    · simp [hid]
    · rcases h with hm | hol
      · left
        unfold batchIds at hm ⊢
        obtain ⟨t, ht, hta⟩ := mem_filterMap.mp hm
        rcases mem_cons.mp ht with rfl | hr
        · exact absurd hta hid
        · exact mem_filterMap.mpr ⟨t, hr, hta⟩
      · right
        rwa [if_neg hid]

end

/-! ## The search for a cycle -/

section
variable {graph : TreeMap String (List String)} {tasks : List GraphNode} {a b : String}

theorem detectCycle_closedPath {path} (h : detectCycle graph = some path) :
    ClosedPath (Edge (edges graph)) path := by
  obtain ⟨result, hr⟩ := cycleSearch_returns graph
  have hs := hr ▸ cycleSearch_finds graph
  simp only [detectCycle, hr, Option.get_some] at h
  cases result with
  | cycle found => exact Option.some.inj h ▸ hs
  | finished color => cases h

/-- Without a reported cycle every node is grounded: the keys because the
search has visited them, the others because they have no edges. -/
theorem detectCycle_acyclic (h : detectCycle graph = none) :
    ¬ TransGen (Edge (edges graph)) a a := by
  obtain ⟨result, hr⟩ := cycleSearch_returns graph
  have hso := hr ▸ cycleSearch_finds graph
  simp only [detectCycle, hr, Option.get_some] at h
  cases result with
  | cycle found => cases h
  | finished color =>
    obtain ⟨hs, _, hd⟩ := hso
    apply Grounded.not_cyclic
    by_cases hk : a ∈ graph
    · exact hs.black a (hd a (TreeMap.mem_keys.mpr hk))
    · have hn : edges graph a = [] := by
        rw [edges, TreeMap.getElem?_eq_none hk, Option.getD_none]
      exact Acc.intro a fun next hed => by simp [Edge, hn] at hed

theorem detectCycle_eq_none_iff :
    detectCycle graph = none ↔ ∀ a, ¬ TransGen (Edge (edges graph)) a a := by
  constructor
  · exact fun h a => detectCycle_acyclic h
  · intro ha
    cases hf : detectCycle graph with
    | none => rfl
    | some path =>
      obtain ⟨v, hv⟩ := (detectCycle_closedPath hf).cyclic
      exact absurd hv (ha v)

def batchGraph (tasks : List GraphNode) : TreeMap String (List String) :=
  (scanDependencies (scanIds tasks).ids (scanIds tasks).issues tasks).adjacency

theorem dependsOn_of_edge (h : Edge (edges (batchGraph tasks)) a b) : DependsOn tasks a b := by
  unfold Edge edges at h
  cases hn : (batchGraph tasks)[a]? with
  | none => simp [hn] at h
  | some deps =>
    rw [hn, Option.getD_some] at h
    rcases adjacency_sound _ hn with hem | ⟨task, hm, hid, rfl⟩
    · simp at hem
    · exact ⟨task, hm, hid, mem_dependencies.mp h⟩

theorem eq_of_same_id (hd : (batchIds tasks).Nodup) {task task'} (hm : task ∈ tasks)
    (hm' : task' ∈ tasks) (hid : task.id = some a) (hid' : task'.id = some a) : task = task' := by
  by_contra hne
  have hp := pairwise_filterMap.mp hd
  have hs : Std.Symm fun t t' : GraphNode =>
      ∀ b, t.id = some b → ∀ b', t'.id = some b' → b ≠ b' :=
    ⟨fun t t' h b hb b' hb' he => h b' hb' b hb he.symm⟩
  exact hp.forall hm hm' hne a hid a hid' rfl

/-- With distinct ids no task's edges are replaced, so the graph has every
declared edge. -/
theorem edge_of_dependsOn (hd : (batchIds tasks).Nodup) (h : DependsOn tasks a b) :
    Edge (edges (batchGraph tasks)) a b := by
  obtain ⟨task, hm, hid, hde⟩ := h
  have hin : a ∈ batchIds tasks := mem_filterMap.mpr ⟨task, hm, hid⟩
  obtain ⟨deps, hn⟩ : ∃ deps, (batchGraph tasks)[a]? = some deps :=
    Option.ne_none_iff_exists'.mp (adjacency_complete _ (.inl hin))
  rcases adjacency_sound _ hn with hem | ⟨task', hm', hid', rfl⟩
  · simp at hem
  · obtain rfl := eq_of_same_id hd hm hm' hid hid'
    unfold Edge edges
    rw [hn, Option.getD_some]
    exact mem_dependencies.mpr hde

theorem detectCycle_batchGraph (hd : (batchIds tasks).Nodup) :
    detectCycle (batchGraph tasks) = none ↔ ∀ a, ¬ TransGen (DependsOn tasks) a a := by
  have hed : Edge (edges (batchGraph tasks)) = DependsOn tasks := by
    funext a b
    exact propext ⟨dependsOn_of_edge, edge_of_dependsOn hd⟩
  rw [detectCycle_eq_none_iff, hed]

end

/-! ## The report -/

section
variable {tasks : List GraphNode}

theorem validateBatchGraph_eq : validateBatchGraph tasks =
      (scanIds tasks).issues ++ tasks.flatMap (GraphNode.faults (scanIds tasks).ids) ++
        cycleIssues (batchGraph tasks) :=
  congrArg (· ++ cycleIssues (batchGraph tasks)) (foldl_visit_dependencies_issues _)

theorem cycleIssues_eq_nil {graph} : cycleIssues graph = [] ↔ detectCycle graph = none := by
  unfold cycleIssues
  cases detectCycle graph <;> simp

/-- Once the ids are in order, a task has no fault exactly when it declares
nothing it may not. -/
theorem faults_eq_nil (hwf : ∀ id ∈ batchIds tasks, WellFormedId id) :
    tasks.flatMap (GraphNode.faults (scanIds tasks).ids) = [] ↔
      (∀ task ∈ tasks, task.id = none → ∀ parent, ¬ Declares task parent) ∧
        ∀ a b, DependsOn tasks a b → b ∈ batchIds tasks := by
  have his : ∀ id, id ∈ (scanIds tasks).ids ↔ id ∈ batchIds tasks :=
    fun id => mem_scanIds.trans (and_iff_left_of_imp (hwf id))
  rw [flatMap_eq_nil_iff]
  constructor
  · intro h
    refine ⟨fun task hm hid => (faults_eq_nil_of_none hid).mp (h task hm), ?_⟩
    rintro a b ⟨task, hm, hid, hd⟩
    exact (his b).mp ((faults_eq_nil_of_some hid).mp (h task hm) b hd)
  · rintro ⟨ha, hk⟩ task hm
    cases hid : task.id with
    | none => exact (faults_eq_nil_of_none hid).mpr (ha task hm hid)
    | some a =>
      rw [faults_eq_nil_of_some hid]
      exact fun b hb => (his b).mpr (hk a b ⟨task, hm, hid, hb⟩)

theorem validateBatchGraph_eq_nil : validateBatchGraph tasks = [] ↔ ValidBatch tasks := by
  rw [validateBatchGraph_eq, append_eq_nil_iff, append_eq_nil_iff, scanIds_issues,
    cycleIssues_eq_nil]
  constructor
  · rintro ⟨⟨⟨hwf, hd⟩, hf⟩, hc⟩
    obtain ⟨ha, hk⟩ := (faults_eq_nil hwf).mp hf
    exact ⟨hwf, hd, ha, hk, (detectCycle_batchGraph hd).mp hc⟩
  · intro h
    exact ⟨⟨⟨h.wellFormed, h.distinct⟩, (faults_eq_nil h.wellFormed).mpr ⟨h.anonymous, h.known⟩⟩,
      (detectCycle_batchGraph h.distinct).mpr h.acyclic⟩

theorem foldl_visit_kind {entries : List (GraphNode × Nat)} (scan : IdScan)
    (h : ∀ issue ∈ scan.issues, issue.kind ≠ .cycle) :
    ∀ issue ∈ (entries.foldl IdScan.visit scan).issues, issue.kind ≠ .cycle := by
  induction entries generalizing scan with
  | nil => exact h
  | cons entry rest ih =>
    apply ih
    obtain ⟨_, hv⟩ | ⟨_, _, _, _, hv⟩ | ⟨_, _, _, _, hv⟩ | ⟨_, _, _, _, hv⟩ :=
      scan.visit_cases entry <;>
    rw [hv] <;> simpa [or_imp, forall_and] using h

theorem faults_kind {ids : TreeMap String Nat} {task : GraphNode} {issue : GraphIssue}
    (h : issue ∈ task.faults ids) : issue.kind ≠ .cycle := by
  unfold GraphNode.faults at h
  split at h
  · split at h
    · rw [mem_singleton.mp h]
      exact nofun
    · cases h
  · rcases mem_append.mp h with hpa | hde
    · obtain ⟨p, _, hp⟩ := mem_flatMap.mp hpa
      rw [unknownTask_kind hp]
      exact nofun
    · obtain ⟨d, _, hd⟩ := mem_flatMap.mp hde
      rw [unknownTask_kind hd]
      exact nofun

/-- Only the last check speaks of cycles, and it prints a closed path. -/
theorem cycle_reported {issue : GraphIssue} (h : issue ∈ validateBatchGraph tasks)
    (hk : issue.kind = .cycle) :
    ∃ path, ClosedPath (DependsOn tasks) path ∧
      issue.message = "cyclic depends_on: " ++ " -> ".intercalate path := by
  rw [validateBatchGraph_eq, mem_append, mem_append] at h
  rcases h with (hid | hf) | hc
  · exact absurd hk (foldl_visit_kind _ (by simp) issue hid)
  · obtain ⟨task, _, his⟩ := mem_flatMap.mp hf
    exact absurd hk (faults_kind his)
  · unfold cycleIssues at hc
    split at hc
    · rename_i path hfo
      rw [mem_singleton.mp hc]
      exact ⟨path, (detectCycle_closedPath hfo).mono fun _ _ => dependsOn_of_edge, rfl⟩
    · cases hc

end

/-- **The check of a batch is exact.** The report is empty exactly for a valid
batch, every reported cycle is a closed path of dependencies, and the search
returns on every graph, whatever ids it mentions. -/
theorem batchGraph_exact : (validateBatchGraph tasks = [] ↔ ValidBatch tasks) ∧
    (∀ issue ∈ validateBatchGraph tasks, issue.kind = .cycle →
      ∃ path, ClosedPath (DependsOn tasks) path ∧
        issue.message = "cyclic depends_on: " ++ " -> ".intercalate path) ∧
    ∃ result, cycleSearch (batchGraph tasks) = some result :=
  ⟨validateBatchGraph_eq_nil, fun _ => cycle_reported, cycleSearch_returns _⟩

end MacWorker.Dag
