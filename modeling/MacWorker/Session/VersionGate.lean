import MacWorker.Scheduler
import MacWorker.Session.ScrubLine

/-! # The version gate of a session

A captured session records the version of the agent that wrote it, and asks for a worker
whose agent is not much older. The capture accepts two to four numbers with a suffix, the
requirement is written and parsed back, and the scheduler compares the leading two or
three numbers, which have to fit into 64 bits. A version that the capture accepts and the
scheduler cannot compare is satisfied by no worker, not even by the one that wrote it. -/
namespace MacWorker.Session
open Scheduler List

/-! ## The capture -/

def isSuffixMark (b : UInt8) : Bool := b == 45 || b == 43

/-- The numbers of a version, before its suffix. -/
def versionParts (version : List UInt8) : List (List UInt8) :=
  splitBytes 46 (version.takeWhile fun b => !isSuffixMark b)

/-- What follows the numbers: nothing, or a mark and a suffix. -/
def supportedSuffix : List UInt8 → Bool
  | [] => true
  | _ :: suffix => suffix != [] && decide (suffix.length ≤ 32) &&
      suffix.all fun b => isAsciiAlphanumeric b || b == 46

def supportedPart (part : List UInt8) : Bool := part != [] && part.all isAsciiDigit

def supportedAgentVersion (serde : SerdeJson) (scrubber : Scrubber) (version : String) : Bool :=
  let text := bytes version
  decide (text.length ≤ 64) && !text.contains 47 &&
    supportedSuffix (text.dropWhile fun b => !isSuffixMark b) &&
    (versionParts text).all supportedPart &&
    decide (2 ≤ (versionParts text).length ∧ (versionParts text).length ≤ 4) &&
    (match scrubber.scrubLine serde (serde.encode text) with
      | .ok line => line.replacements == 0
      | .error _ => false)

def agentMinRequirement (agent : SessionAgent) (version : String) : String :=
  agentMinRequirementPrefix ++ agent.asStr ++ "@" ++ version

/-- What the readers behind the capture rely on. -/
structure Supported (text : List UInt8) : Prop where
  length_le : text.length ≤ 64
  suffix : supportedSuffix (text.dropWhile fun b => !isSuffixMark b) = true
  digits : ∀ part ∈ versionParts text, part ≠ [] ∧ part.all isAsciiDigit = true
  two_le : 2 ≤ (versionParts text).length
  le_four : (versionParts text).length ≤ 4

theorem supported_of_supportedAgentVersion {serde scrubber version}
    (h : supportedAgentVersion serde scrubber version = true) :
    Supported (bytes version) := by
  simp only [supportedAgentVersion, Bool.and_eq_true, decide_eq_true_eq, all_eq_true] at h
  obtain ⟨⟨⟨⟨⟨hl, -⟩, hs⟩, hpa⟩, hc⟩, -⟩ := h
  refine ⟨hl, hs, fun part hp => ?_, hc.1, hc.2⟩
  have hp := hpa part hp
  simp only [supportedPart, Bool.and_eq_true, bne_iff_ne, ne_eq] at hp
  exact hp

/-! ## The characters of a version -/

theorem mem_splitBytes {separator b text} (hb : b ∈ text) :
    b = separator ∨ ∃ part ∈ splitBytes separator text, b ∈ part := by
  induction text with
  | nil => simp at hb
  | cons c text ih =>
    rw [splitBytes]
    cases hs : splitBytes separator text with
    | nil =>
      rw [hs] at ih
      rcases mem_cons.mp hb with rfl | hb
      · exact .inr ⟨[b], by simp, by simp⟩
      · exact (ih hb).imp_right fun hin => by simp at hin
    | cons part parts =>
      rw [hs] at ih
      rcases mem_cons.mp hb with rfl | hb
      · by_cases hse : b = separator
        · exact .inl hse
        · exact .inr ⟨b :: part, by simp [hse], by simp⟩
      · refine (ih hb).imp_right fun hin => ?_
        obtain ⟨found, hf, hb⟩ := hin
        by_cases hse : c = separator
        · exact ⟨found, by simp [hse, mem_cons.mp hf], hb⟩
        · rcases mem_cons.mp hf with rfl | hf
          · exact ⟨c :: found, by simp [hse], by simp [hb]⟩
          · exact ⟨found, by simp [hse, hf], hb⟩

theorem takeWhile_append_of_stop {p : UInt8 → Bool} {front back : List UInt8}
    (hf : ∀ b ∈ front, p b = true) (hba : back.head?.all (fun b => !p b) = true) :
    (front ++ back).takeWhile p = front := by
  rw [takeWhile_append_of_pos hf]
  cases back with
  | nil => simp
  | cons b back =>
    have hb : p b = false := by simpa using hba
    simp [List.takeWhile, hb]

theorem printable_of_word {b} (h : isAsciiAlphanumeric b = true ∨ b = 46) :
    (33 ≤ b && b ≤ 126 && b != 64) = true := by
  simp only [isAsciiAlphanumeric, isAsciiLowercase, isAsciiUppercase, isAsciiDigit,
    Bool.or_eq_true, Bool.and_eq_true, decide_eq_true_eq, bne_iff_ne, ne_eq,
    UInt8.le_iff_toNat_le, ← UInt8.toNat_inj] at h ⊢
  simp at h ⊢
  omega

namespace Supported

variable {text : List UInt8}

theorem numeric (h : Supported text) :
    ∀ b ∈ text.takeWhile (fun b => !isSuffixMark b), (isAsciiDigit b || b == 46) = true := by
  intro b hb
  rcases @mem_splitBytes 46 b _ hb with rfl | hin
  · rfl
  · obtain ⟨part, hp, hb⟩ := hin
    have hd := (h.digits part hp).2
    simp [all_eq_true.mp hd b hb]

theorem components_parts (h : Supported text) :
    splitBytes 46 (text.takeWhile fun b => isAsciiDigit b || b == 46) = versionParts text := by
  have hs : (text.dropWhile fun b => !isSuffixMark b).head?.all
      (fun b => !(isAsciiDigit b || b == 46)) = true := by
    cases hba : text.dropWhile fun b => !isSuffixMark b with
    | nil => rfl
    | cons b back =>
      have hb : isSuffixMark b = true := by
        have := head?_dropWhile_not (fun b => !isSuffixMark b) text
        simpa [hba] using this
      simp only [isSuffixMark, Bool.or_eq_true, beq_iff_eq] at hb
      rcases hb with rfl | rfl <;> rfl
  have ht := takeWhile_append_of_stop h.numeric hs
  rw [takeWhile_append_dropWhile] at ht
  rw [ht, versionParts]

theorem printable (h : Supported text) :
    text.all (fun b => 33 ≤ b && b ≤ 126 && b != 64) = true := by
  rw [all_eq_true]
  intro b hb
  rw [← takeWhile_append_dropWhile (p := fun b => !isSuffixMark b) (l := text)] at hb
  rcases mem_append.mp hb with hb | hb
  · have hw := h.numeric b hb
    simp only [Bool.or_eq_true, beq_iff_eq] at hw
    exact printable_of_word (hw.imp_left fun hd => by simp [isAsciiAlphanumeric, hd])
  · have hs := h.suffix
    have hm := head?_dropWhile_not (fun b => !isSuffixMark b) text
    cases hba : text.dropWhile fun b => !isSuffixMark b with
    | nil => simp [hba] at hb
    | cons c back =>
      rw [hba] at hb hs hm
      simp only [supportedSuffix, Bool.and_eq_true, all_eq_true] at hs
      rcases mem_cons.mp hb with rfl | hb
      · have hb : b = 45 ∨ b = 43 := by simpa [isSuffixMark, ← or_iff_not_imp_left] using hm
        rcases hb with rfl | rfl <;> rfl
      · exact printable_of_word (by simpa [isAsciiAlphanumeric] using hs.2 b hb)

end Supported

/-! ## The requirement -/

theorem bytes_append (a b : String) : bytes (a ++ b) = bytes a ++ bytes b := by
  simp [bytes]

theorem isPrefixOf?_append (front back : List UInt8) :
    front.isPrefixOf? (front ++ back) = some back := by
  induction front with
  | nil => rfl
  | cons b front ih => simp [List.isPrefixOf?, ih]

theorem bytes_agentMinRequirement (agent : SessionAgent) (version : String) :
    bytes (agentMinRequirement agent version) =
      bytes agentMinRequirementPrefix ++ (bytes agent.asStr ++ 64 :: bytes version) := by
  have hat : bytes "@" = [64] := by decide
  simp [agentMinRequirement, bytes_append, hat]

theorem asStr_no_at (agent : SessionAgent) : ∀ b ∈ bytes agent.asStr, (b != 64) = true := by
  have ha : (bytes agent.asStr).all (fun b => b != 64) = true := by
    cases agent <;> decide
  exact all_eq_true.mp ha

theorem parseAgentMinRequirement_agentMinRequirement (agent : SessionAgent) {version : String}
    (h : Supported (bytes version)) :
    parseAgentMinRequirement (agentMinRequirement agent version) = some (agent, bytes version) := by
  have hn : (bytes agent.asStr ++ 64 :: bytes version).takeWhile (· != 64) = bytes agent.asStr :=
    takeWhile_append_of_stop (asStr_no_at agent) rfl
  have hv : (bytes agent.asStr ++ 64 :: bytes version).dropWhile (· != 64) =
      64 :: bytes version := by
    rw [dropWhile_append_of_pos (asStr_no_at agent)]
    rfl
  have hne : bytes version ≠ [] := by
    intro hni
    have ht := h.two_le
    simp [hni, versionParts, splitBytes] at ht
  have hk : ¬ (bytes version = [] ∨ (bytes version).length > 64 ∨
      (bytes version).all (fun b => 33 ≤ b && b ≤ 126 && b != 64) = false) := by
    simp [hne, h.length_le, h.printable]
  rw [parseAgentMinRequirement, bytes_agentMinRequirement, isPrefixOf?_append]
  simp only [Option.bind_eq_bind, Option.bind_some, hn, hv, tail?_cons, if_neg hk]
  cases agent with
  | claude => exact if_pos rfl
  | codex =>
    rw [if_neg (by decide)]
    exact if_pos rfl

/-! ## The comparison -/

/-- The number a text of digits stands for. -/
def decimal (digits : List UInt8) : Nat := digits.foldl (fun acc d => 10 * acc + (d.toNat - 48)) 0

/-- Versions the scheduler can compare: at most three numbers, each of 64 bits. -/
def Comparable (version : List UInt8) : Prop :=
  (versionParts version).length ≤ 3 ∧ ∀ part ∈ versionParts version, decimal part < 2 ^ 64

theorem parseU64_isSome {part} (h : part ≠ [] ∧ part.all isAsciiDigit = true) :
    (parseU64 part).isSome = true ↔ decimal part < 2 ^ 64 := by
  have hp : parseU64 part = if decimal part < 2 ^ 64 then some (decimal part) else none := by
    rw [parseU64, if_neg (by simp [h.1, h.2]), decimal]
  rw [hp]
  by_cases hf : decimal part < 2 ^ 64
  · rw [if_pos hf]
    exact iff_of_true rfl hf
  · rw [if_neg hf]
    exact iff_of_false (by simp) hf

theorem parseU64_lt {digits value} (h : parseU64 digits = some value) : value < 2 ^ 64 := by
  unfold parseU64 at h
  split at h
  · simp at h
  · simp only [Option.ite_none_right_eq_some, Option.some.injEq] at h
    omega

theorem Supported.components_isSome {text} (h : Supported text) :
    (components text).isSome = true ↔ Comparable text := by
  have hd := h.digits
  have ht := h.two_le
  rw [components, h.components_parts, Comparable]
  match hp : versionParts text with
  | [] | [_] => simp [hp] at ht
  | [major, minor] =>
    rw [hp] at hd
    simp only [forall_mem_cons, ← parseU64_isSome (hd major (by simp)),
      ← parseU64_isSome (hd minor (by simp))]
    cases parseU64 major <;> cases parseU64 minor <;> simp
  | [major, minor, patch] =>
    rw [hp] at hd
    simp only [forall_mem_cons, ← parseU64_isSome (hd major (by simp)),
      ← parseU64_isSome (hd minor (by simp)), ← parseU64_isSome (hd patch (by simp))]
    cases parseU64 major <;> cases parseU64 minor <;> cases parseU64 patch <;> simp
  | _ :: _ :: _ :: _ :: _ => simp

theorem components_snd_lt {version found} (h : components version = some found) :
    found.2 < 2 ^ 64 := by
  unfold components at h
  split at h
  · simp only [Option.bind_eq_bind, Option.bind_eq_some_iff, Option.pure_def] at h
    obtain ⟨major, -, minor, hm, hf⟩ := h
    cases hf
    exact parseU64_lt hm
  · simp only [Option.bind_eq_bind, Option.bind_eq_some_iff, Option.pure_def] at h
    obtain ⟨major, -, minor, hm, _, -, hf⟩ := h
    cases hf
    exact parseU64_lt hm
  · simp at h

theorem versionSatisfies_self (version : List UInt8) :
    versionSatisfies version version = some true ↔ (components version).isSome = true := by
  cases hc : components version with
  | none => simp [versionSatisfies, hc]
  | some found =>
    have hm := components_snd_lt hc
    simp [versionSatisfies, hc]
    omega

/-- The second version is not older than the first, by its two leading numbers. -/
def NotOlder (version later : List UInt8) : Prop :=
  ∃ major minor major' minor', components version = some (major, minor) ∧
    components later = some (major', minor') ∧
    (major < major' ∨ major = major' ∧ minor ≤ minor')

theorem versionSatisfies_mono {observed later minimum} (hl : NotOlder observed later)
    (h : versionSatisfies observed minimum = some true) :
    versionSatisfies later minimum = some true := by
  obtain ⟨major, minor, major', minor', hob, hc, hor⟩ := hl
  cases hm : components minimum with
  | none => simp [versionSatisfies, hob, hm] at h
  | some found =>
    simp only [versionSatisfies, hob, hc, hm, Option.bind_eq_bind,
      Option.bind_some, Option.pure_def, Option.some.injEq, Bool.or_eq_true, Bool.and_eq_true,
      decide_eq_true_eq, beq_iff_eq] at h ⊢
    omega

/-! ## The gate -/

theorem requirementSatisfied_agentMinRequirement (agent : SessionAgent) {version}
    (h : Supported (bytes version)) (capabilities : List String)
    (versions : List (String × String)) :
    requirementSatisfied capabilities versions (agentMinRequirement agent version) =
      (versions.lookup agent.asStr).any fun observed =>
        versionSatisfies (bytes observed) (bytes version) == some true := by
  have hs : (bytes agentMinRequirementPrefix).isPrefixOf
      (bytes (agentMinRequirement agent version)) = true := by
    rw [bytes_agentMinRequirement, isPrefixOf_iff_prefix]
    exact prefix_append _ _
  rw [requirementSatisfied, if_pos hs, parseAgentMinRequirement_agentMinRequirement agent h]

/-- The requirement of a version that the capture accepts is read back as it was written; the
worker that wrote the session satisfies it exactly if the scheduler can compare the version;
and a worker that is not older than a satisfying one satisfies it too. -/
theorem agentMinRequirement_satisfied (serde : SerdeJson) (scrubber : Scrubber)
    (agent : SessionAgent) (version : String)
    (h : supportedAgentVersion serde scrubber version = true) :
    parseAgentMinRequirement (agentMinRequirement agent version) = some (agent, bytes version) ∧
      (∀ capabilities versions, versions.lookup agent.asStr = some version →
        (requirementSatisfied capabilities versions (agentMinRequirement agent version) = true ↔
          Comparable (bytes version))) ∧
      (∀ capabilities versions capabilities' versions' observed later,
        versions.lookup agent.asStr = some observed → versions'.lookup agent.asStr = some later →
        NotOlder (bytes observed) (bytes later) →
        requirementSatisfied capabilities versions (agentMinRequirement agent version) = true →
        requirementSatisfied capabilities' versions' (agentMinRequirement agent version) =
          true) := by
  have hs := supported_of_supportedAgentVersion h
  refine ⟨parseAgentMinRequirement_agentMinRequirement agent hs, ?_, ?_⟩
  · intro capabilities versions hf
    rw [requirementSatisfied_agentMinRequirement agent hs, hf,
      ← hs.components_isSome, ← versionSatisfies_self]
    simp
  · intro capabilities versions capabilities' versions' observed later hf hf' hor
    rw [requirementSatisfied_agentMinRequirement agent hs, hf,
      requirementSatisfied_agentMinRequirement agent hs, hf']
    simpa using versionSatisfies_mono hor

/-- The library on texts that need no escapes. -/
def plainJson : SerdeJson where
  accepts _ := true
  holds _ := true
  decode literal := some (literal.drop 1).dropLast
  encode value := [34] ++ value ++ [34]

theorem agentMinRequirement_satisfied_claude :
    requirementSatisfied [] [("claude", "2.1.0")] (agentMinRequirement .claude "2.1.0") = true :=
  ((agentMinRequirement_satisfied plainJson (.new []) .claude "2.1.0" (by decide)).2.1
    [] [("claude", "2.1.0")] (by decide)).mpr (by unfold Comparable; decide)

/-- Four numbers are accepted, and the worker that wrote them does not satisfy them. -/
theorem four_numbers_unsatisfied : supportedAgentVersion plainJson (.new []) "1.2.3.4" = true ∧
      requirementSatisfied [] [("claude", "1.2.3.4")]
        (agentMinRequirement .claude "1.2.3.4") = false := by
  decide

end MacWorker.Session
