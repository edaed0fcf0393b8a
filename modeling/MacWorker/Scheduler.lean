import MacWorker.Base
import Mathlib.Data.List.Sort

/-! # Worker requirements and ranking

Which workers satisfy a row's requirements and in which order they are tried.
A requirement is a capability name or `agent-min:<agent>@<version>`; the
latter asks the recorded agent version to be at most one minor behind. -/
namespace MacWorker.Scheduler
open List

inductive CandidateSlot where
  | idle
  | busy
  deriving DecidableEq

structure CandidateObservation where
  workerName : String
  ready : Bool
  slot : CandidateSlot
  capabilities : List String
  agentVersions : List (String × String)
  availableMemoryBytes : Option Nat
  freeDiskBytes : Nat
  interactiveAgents : Option Nat

structure AffinityHints where
  (worktreeWorker projectWorker : Option String)

inductive WorkerPreference where
  | automatic
  | pinned (worker : String)
  deriving DecidableEq

inductive CandidateRejection where
  | duplicateIdentity (name : String)
  | unavailable (name : String)
  | missingCapabilities (name : String) (missing : List String)
  | busy (name : String)

inductive Selection where
  | selected (candidate : CandidateObservation)
  | noEligible (rejections : List CandidateRejection)

/-! ## Requirements -/

inductive SessionAgent where
  | claude
  | codex

def SessionAgent.asStr : SessionAgent → String
  | .claude => "claude"
  | .codex => "codex"

/-- The pieces of a byte string between occurrences of a separator. -/
def splitBytes (separator : UInt8) : List UInt8 → List (List UInt8)
  | [] => [[]]
  | byte :: rest =>
    match splitBytes separator rest with
    | [] => [[byte]]
    | piece :: pieces =>
      if byte == separator then [] :: piece :: pieces else (byte :: piece) :: pieces

/-- A decimal `u64`; the empty text and an overflow are rejected. -/
def parseU64 (digits : List UInt8) : Option Nat :=
  if digits = [] ∨ digits.all isAsciiDigit = false then none
  else
    let value := digits.foldl (fun acc d => 10 * acc + (d.toNat - 48)) 0
    if value < 2 ^ 64 then some value else none

/-- The leading `major.minor[.patch]` of a version text. -/
def components (version : List UInt8) : Option (Nat × Nat) :=
  match splitBytes 46 (version.takeWhile fun byte => isAsciiDigit byte || byte == 46) with
  | [major, minor] => do return (← parseU64 major, ← parseU64 minor)
  | [major, minor, patch] => do
    let major ← parseU64 major
    let minor ← parseU64 minor
    let _ ← parseU64 patch
    return (major, minor)
  | _ => none

def versionSatisfies (observed minimum : List UInt8) : Option Bool := do
  let (observedMajor, observedMinor) ← components observed
  let (minimumMajor, minimumMinor) ← components minimum
  return decide (observedMajor > minimumMajor) || (observedMajor == minimumMajor &&
      decide (min (observedMinor + 1) (2 ^ 64 - 1) ≥ minimumMinor))

def agentMinRequirementPrefix : String := "agent-min:"

def parseAgentMinRequirement (requirement : String) : Option (SessionAgent × List UInt8) := do
  let rest ← (bytes agentMinRequirementPrefix).isPrefixOf? (bytes requirement)
  let agent := rest.takeWhile (· != 64)
  let version ← (rest.dropWhile (· != 64)).tail?
  let agent ←
    if agent = bytes "claude" then some .claude
    else if agent = bytes "codex" then some .codex
    else none
  if version = [] ∨ version.length > 64 ∨
      version.all (fun b => 33 ≤ b && b ≤ 126 && b != 64) = false then none
  else some (agent, version)

def requirementSatisfied (capabilities : List String) (agentVersions : List (String × String))
    (requirement : String) : Bool :=
  if (bytes agentMinRequirementPrefix).isPrefixOf (bytes requirement) then
    match parseAgentMinRequirement requirement with
    | none => false
    | some (agent, minimum) =>
      (agentVersions.lookup agent.asStr).any fun observed =>
        versionSatisfies (bytes observed) minimum == some true
  else capabilities.any (· == requirement)

/-! ## Ranking -/

/-- Why a candidate is not eligible, in the order the checks are made. -/
def rejection (observations : List CandidateObservation) (requirements : List String)
    (observation : CandidateObservation) : Option CandidateRejection :=
  let name := observation.workerName
  if observations.countP (·.workerName == name) > 1 then some (.duplicateIdentity name)
  else if !observation.ready then some (.unavailable name)
  else
    let missing := requirements.filter fun requirement =>
      !requirementSatisfied observation.capabilities observation.agentVersions requirement
    if missing ≠ [] then some (.missingCapabilities name missing)
    else if observation.slot = .busy then some (.busy name)
    else none

def evaluate (observations : List CandidateObservation) (requirements : List String) :
    List CandidateObservation × List CandidateRejection :=
  (observations.filter fun o => (rejection observations requirements o).isNone,
    observations.filterMap (rejection observations requirements))

def affinityClass (observation : CandidateObservation) (affinity : AffinityHints) : Nat :=
  if affinity.worktreeWorker = some observation.workerName then 0
  else if affinity.projectWorker = some observation.workerName then 1
  else 2

/-- Affinity first, then known memory, more memory, more disk, fewer interactive
agents, and the name. -/
def compareCandidates (affinity : AffinityHints) (left right : CandidateObservation) : Ordering :=
  (compare (affinityClass left affinity) (affinityClass right affinity)).then <|
  (compare left.availableMemoryBytes.isNone.toNat right.availableMemoryBytes.isNone.toNat).then <|
  (compare (right.availableMemoryBytes.getD 0) (left.availableMemoryBytes.getD 0)).then <|
  (compare right.freeDiskBytes left.freeDiskBytes).then <|
  (compare (left.interactiveAgents.getD 0) (right.interactiveAgents.getD 0)).then <|
  compare left.workerName right.workerName

def rankEligible (eligible : List CandidateObservation) (affinity : AffinityHints) :
    List CandidateObservation :=
  eligible.insertionSort fun left right => compareCandidates affinity left right ≠ .gt

def rank (observations : List CandidateObservation) (requirements : List String)
    (affinity : AffinityHints) : List CandidateObservation :=
  rankEligible (evaluate observations requirements).1 affinity

def CandidateRejection.rejectionName : CandidateRejection → String
  | .duplicateIdentity name | .unavailable name | .missingCapabilities name _ | .busy name => name

def WorkerPreference.allows (preference : WorkerPreference) (observation : CandidateObservation) :
    Bool :=
  match preference with
  | .automatic => true
  | .pinned worker => observation.workerName == worker

/-- A pinned worker is looked for before anything is evaluated. -/
def select (observations : List CandidateObservation) (requirements : List String)
    (preference : WorkerPreference) (affinity : AffinityHints) : Selection :=
  let (eligible, rejections) := evaluate (observations.filter preference.allows) requirements
  match rankEligible eligible affinity with
  | candidate :: _ => .selected candidate
  | [] => .noEligible (rejections.insertionSort fun left right =>
      left.rejectionName ≤ right.rejectionName)

section
variable {observations : List CandidateObservation} {requirements : List String}
  {affinity : AffinityHints} {o left right : CandidateObservation}

theorem mem_rank : o ∈ rank observations requirements affinity ↔
    o ∈ observations ∧ rejection observations requirements o = none := by
  simp [rank, rankEligible, evaluate, mem_insertionSort]

/-! ## The order of the candidates -/

/-- The comparison is lexicographic, and descending in memory and disk. -/
instance (affinity : AffinityHints) : Std.TransCmp (compareCandidates affinity) := by
  have hmemory : Std.TransCmp fun a b : CandidateObservation =>
      compareOn (·.availableMemoryBytes.getD 0) b a := .opposite
  have hdisk : Std.TransCmp fun a b : CandidateObservation => compareOn (·.freeDiskBytes) b a :=
    .opposite
  show Std.TransCmp (compareLex (compareOn (affinityClass · affinity))
    (compareLex (compareOn (·.availableMemoryBytes.isNone.toNat))
    (compareLex (fun a b => compareOn (·.availableMemoryBytes.getD 0) b a)
    (compareLex (fun a b => compareOn (·.freeDiskBytes) b a)
    (compareLex (compareOn (·.interactiveAgents.getD 0)) (compareOn (·.workerName)))))))
  infer_instance

def Before (affinity : AffinityHints) (left right : CandidateObservation) : Prop :=
  compareCandidates affinity left right = .lt

instance (affinity : AffinityHints) : IsStrictOrder CandidateObservation (Before affinity) where
  irrefl o h := by
    have hself : compareCandidates affinity o o = .eq := Std.ReflCmp.compare_self
    cases hself.symm.trans h
  trans _ _ _ := Std.TransCmp.lt_trans

theorem before_or_after (h : left.workerName ≠ right.workerName) :
    Before affinity left right ∨ Before affinity right left := by
  cases hc : compareCandidates affinity left right with
  | lt => exact .inl hc
  | eq =>
    simp only [compareCandidates, Ordering.then_eq_eq] at hc
    exact absurd (Std.LawfulEqOrd.eq_of_compare hc.2.2.2.2.2) h
  | gt => exact .inr (Std.OrientedCmp.lt_of_gt hc)

theorem eligible_nodup : ((evaluate observations requirements).1.map (·.workerName)).Nodup := by
  rw [nodup_iff_count_le_one]
  intro name
  by_cases hm : name ∈ (evaluate observations requirements).1.map (·.workerName)
  · obtain ⟨o, ho, rfl⟩ := mem_map.mp hm
    have hon : observations.countP (·.workerName == o.workerName) ≤ 1 := by
      by_contra ht
      have hr := (mem_filter.mp ho).2
      simp [rejection, Nat.lt_of_not_le ht] at hr
    rw [count_eq_countP, countP_map]
    exact (filter_sublist.countP_le).trans hon
  · rw [count_eq_zero_of_not_mem hm]
    exact Nat.zero_le 1

theorem rank_nodup : ((rank observations requirements affinity).map (·.workerName)).Nodup :=
  ((perm_insertionSort _ _).map _).nodup_iff.mpr eligible_nodup

theorem pairwise_rank (observations : List CandidateObservation) (requirements : List String)
    (affinity : AffinityHints) :
    (rank observations requirements affinity).Pairwise (Before affinity) := by
  have ht : Std.Total fun left right => compareCandidates affinity left right ≠ .gt :=
    ⟨fun left right => by
      refine or_iff_not_imp_left.mpr fun hgt => ?_
      rw [Std.OrientedCmp.lt_of_gt (not_not.mp hgt)]
      nofun⟩
  have htr : IsTrans CandidateObservation
      fun left right => compareCandidates affinity left right ≠ .gt :=
    ⟨fun _ _ _ h h' => Ordering.isLE_iff_ne_gt.mp
      (Std.TransCmp.isLE_trans (Ordering.isLE_iff_ne_gt.mpr h) (Ordering.isLE_iff_ne_gt.mpr h'))⟩
  refine ((pairwise_insertionSort _ _).and (pairwise_map.mp rank_nodup)).imp fun hb => ?_
  refine (before_or_after hb.2).resolve_right fun ha => hb.1 ?_
  exact Std.OrientedCmp.gt_of_lt ha

theorem rejection_of_count {others} (h : others.countP (·.workerName == o.workerName) =
      observations.countP (·.workerName == o.workerName)) :
    rejection others requirements o = rejection observations requirements o := by
  simp only [rejection, h]

theorem select_eq_selected {preference} :
    select observations requirements preference affinity = .selected o ↔
      (rank (observations.filter preference.allows) requirements affinity).head? = some o := by
  unfold select rank
  dsimp only
  split <;> simp_all

theorem mem_rank_filter (keep : String → Bool) :
    o ∈ rank (observations.filter fun o => keep o.workerName) requirements affinity ↔
      o ∈ rank observations requirements affinity ∧ keep o.workerName = true := by
  rw [mem_rank, mem_rank, mem_filter]
  -- whoever is left out had another name, so no kept name is counted less often
  have hc (hn : keep o.workerName = true) :
      (observations.filter fun o => keep o.workerName).countP (·.workerName == o.workerName) =
        observations.countP (·.workerName == o.workerName) := by
    rw [countP_filter]
    refine countP_congr fun o' _ => ?_
    simp only [Bool.and_eq_true, beq_iff_eq, and_iff_left_iff_imp]
    intro h
    rw [h, hn]
  constructor
  · rintro ⟨⟨hm, hn⟩, hno⟩
    exact ⟨⟨hm, rejection_of_count (hc hn) ▸ hno⟩, hn⟩
  · rintro ⟨⟨hm, hno⟩, hn⟩
    exact ⟨⟨hm, hn⟩, rejection_of_count (hc hn) ▸ hno⟩

theorem mem_rank_pinned {worker} :
    o ∈ rank (observations.filter (WorkerPreference.pinned worker).allows) requirements affinity ↔
      o ∈ rank observations requirements affinity ∧ o.workerName = worker := by
  rw [← beq_iff_eq (a := o.workerName)]
  exact mem_rank_filter (· == worker)

end

/-- **The ranking is exact and does not depend on the order of the observations.** It holds
the eligible workers and no others, in a strict order in which different workers are never
equal. Without a preference its first is selected, and a pinned worker is selected exactly
if it is in the ranking. -/
theorem rank_exact (observations : List CandidateObservation) (requirements : List String)
    (affinity : AffinityHints) :
    (∀ o, o ∈ rank observations requirements affinity ↔
      o ∈ observations ∧ rejection observations requirements o = none) ∧
    (rank observations requirements affinity).Pairwise (Before affinity) ∧
    IsStrictOrder CandidateObservation (Before affinity) ∧
    (∀ left right : CandidateObservation, left.workerName ≠ right.workerName →
      Before affinity left right ∨ Before affinity right left) ∧
    (∀ shuffled, shuffled.Perm observations →
      rank shuffled requirements affinity = rank observations requirements affinity) ∧
    (∀ o, select observations requirements .automatic affinity = .selected o ↔
      (rank observations requirements affinity).head? = some o) ∧
    ((∃ rejections, select observations requirements .automatic affinity =
      .noEligible rejections) ↔ ∀ o ∈ observations, rejection observations requirements o ≠ none) ∧
    ∀ worker o, select observations requirements (.pinned worker) affinity = .selected o ↔
      o ∈ rank observations requirements affinity ∧ o.workerName = worker := by
  have hal : observations.filter WorkerPreference.automatic.allows = observations :=
    filter_eq_self.mpr fun _ _ => rfl
  have ha : ∀ o, select observations requirements .automatic affinity = .selected o ↔
      (rank observations requirements affinity).head? = some o := by
    intro o
    rw [select_eq_selected, hal]
  refine ⟨fun _ => mem_rank, pairwise_rank .., inferInstance, fun _ _ => before_or_after,
    fun shuffled hp => ?_, ha, ?_, fun worker o => ?_⟩
  · refine (pairwise_rank ..).eq_of_mem_iff (pairwise_rank ..) fun o => ?_
    rw [mem_rank, mem_rank, hp.mem_iff, rejection_of_count (hp.countP_eq _)]
  · trans rank observations requirements affinity = []
    · rw [← head?_eq_none_iff, Option.eq_none_iff_forall_ne_some]
      simp only [ne_eq, ← ha]
      cases select observations requirements .automatic affinity <;> simp
    · simp only [eq_nil_iff_forall_not_mem, mem_rank, not_and, ne_eq]
  · rw [select_eq_selected, ← mem_rank_pinned]
    refine ⟨mem_of_mem_head?, fun hm => ?_⟩
    cases hr : rank (observations.filter (WorkerPreference.pinned worker).allows) requirements
        affinity with
    | nil => simp [hr] at hm
    | cons first rest =>
      have hf := hr ▸ mem_cons_self (a := first) (l := rest)
      refine congrArg some (inj_on_of_nodup_map rank_nodup hf hm ?_)
      rw [(mem_rank_pinned.mp hf).2, (mem_rank_pinned.mp hm).2]

/-- **Who is left out does not matter to the others.** Leaving workers out of the observations
leaves them out of the ranking and changes nothing else, so a selected worker stays selected
while only others are left out. -/
theorem rank_filter (observations : List CandidateObservation) (requirements : List String)
    (affinity : AffinityHints) (keep : String → Bool) :
    let kept := observations.filter fun o => keep o.workerName
    rank kept requirements affinity =
      (rank observations requirements affinity).filter (fun o => keep o.workerName) ∧
    ∀ o, select observations requirements .automatic affinity = .selected o →
      keep o.workerName = true → select kept requirements .automatic affinity = .selected o := by
  intro kept
  have hr : rank kept requirements affinity =
      (rank observations requirements affinity).filter fun o => keep o.workerName := by
    refine (pairwise_rank ..).eq_of_mem_iff ((pairwise_rank ..).filter _) fun o => ?_
    rw [mem_rank_filter, mem_filter]
  have hal (l) : filter WorkerPreference.automatic.allows l = l := filter_eq_self.mpr fun _ _ => rfl
  refine ⟨hr, fun o hs hk => ?_⟩
  rw [select_eq_selected, hal, head?_eq_some_iff] at hs
  obtain ⟨rest, he⟩ := hs
  rw [select_eq_selected, hal, hr, he]
  simp [hk]

end MacWorker.Scheduler
