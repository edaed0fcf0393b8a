import MacWorker.Base
import MacWorker.Lib.Durable
import MacWorker.Lib.Reach

/-! # Role files of the event journal

The journal replaces each of its files as a whole. The new content goes to a stage; an evidence
file says which two files are about to change places; the names are exchanged, and the old
content and the evidence are removed. A removal has a record of its own. Recovery finishes or
undoes what it finds, for one role after another; here there is one.

A process can die after any step, and in the middle of a text that it writes.
**`role_replacement_atomic`** says what recovery makes of that, however often it dies itself;
`evidence_left` shows when the evidence stays. -/
namespace MacWorker.Journal
open Durable Relation
open Prog (require)

/-! ## The files of a role -/

inductive RoleKind where
  | initialization
  | manifest
  | pending
  | segment
  | retirement
  deriving DecidableEq

def RoleKind.limit (kind : RoleKind) : Nat := if kind = .segment then 256 * 1024 else 64 * 1024

/-- Device, inode, type, owner and mode of a file, as one number. -/
abbrev Binding := Nat

structure Role where
  journalId : Uuid
  root : Binding
  kind : RoleKind
  target : String
  deriving DecidableEq

structure RoleEvidence where
  role : Role
  oldBinding : Option Binding
  oldLen : Nat
  oldDigest : Option String
  stageBinding : Binding
  newLen : Nat
  newDigest : String

structure File where
  binding : Binding
  bytes : List UInt8
  deriving DecidableEq

/-- Without a record the file holds a proper first part of the text of one. -/
structure EvidenceFile where
  binding : Binding
  record : Option RoleEvidence

/-- The files that are removed through the private directory. -/
inductive Name where
  | stage
  | evidence

structure Dir where
  target : Option File
  stage : Option File
  evidence : Option EvidenceFile
  /-- The records of removals that are not over, with the bindings of the files. -/
  stageRemoval : Option Binding
  evidenceRemoval : Option Binding

inductive JournalError where
  | unavailable
  | stageUnavailable
  | exceedsLimit
  | alreadyExists
  | stale
  deriving DecidableEq

structure Store where
  role : Role
  digest : List UInt8 → String

abbrev Action := Prog JournalError Dir

namespace Dir

def binding (d : Dir) : Name → Option Binding
  | .stage => d.stage.map (·.binding)
  | .evidence => d.evidence.map (·.binding)

def removal (d : Dir) : Name → Option Binding
  | .stage => d.stageRemoval
  | .evidence => d.evidenceRemoval

def setRemoval (d : Dir) (name : Name) (binding : Option Binding) : Dir :=
  match name with
  | .stage => { d with stageRemoval := binding }
  | .evidence => { d with evidenceRemoval := binding }

def hide (d : Dir) : Name → Dir
  | .stage => { d with stage := none }
  | .evidence => { d with evidence := none }

def content (d : Dir) : Option (List UInt8) := d.target.map (·.bytes)

/-- Nothing is under way. -/
def idle (target : Option File) : Dir := ⟨target, none, none, none, none⟩

end Dir

/-! ## Removals

The record of a removal is written while the file is still there, and goes last. A later call
that finds the record goes on from there. -/

def resumeCleanup (name : Name) (binding : Binding) : Action Unit := do
  match (← Prog.get).binding name with
  | some found => do
    require (found = binding) .stale
    Prog.write (·.hide name)
  | none => pure ()
  Prog.write (·.setRemoval name none)

def resumePendingOwnedRegularCleanup (name : Name) : Action Unit := do
  match (← Prog.get).removal name with
  | some binding => resumeCleanup name binding
  | none => pure ()

def retryPendingOwnedRegularsMatching (name : Name) (binding : Binding) : Action Unit := do
  if (← Prog.get).removal name = some binding then resumeCleanup name binding

def removeOwnedRegular (name : Name) : Action Unit := do
  match (← Prog.get).removal name, (← Prog.get).binding name with
  | some binding, _ => resumeCleanup name binding
  | none, none => pure ()
  | none, some binding => do
    Prog.write (·.setRemoval name (some binding))
    resumeCleanup name binding

def removeBound (name : Name) (binding : Binding) : Action Unit := do
  retryPendingOwnedRegularsMatching name binding
  match (← Prog.get).binding name with
  | some found => do
    require (found = binding) .unavailable
    removeOwnedRegular name
  | none => pure ()

/-! ## Recovery -/

def File.readPrivateRegular (file : File) (maximum : Nat) : Except JournalError (List UInt8) :=
  if file.bytes.length ≤ maximum then .ok file.bytes else .error .exceedsLimit

def EvidenceFile.readJson (file : EvidenceFile) : Except JournalError RoleEvidence :=
  match file.record with
  | some record => .ok record
  | none => .error .unavailable

def RoleEvidence.Valid (e : RoleEvidence) (s : Store) : Prop :=
  e.role = s.role ∧ e.oldBinding.isSome = e.oldDigest.isSome ∧ e.oldLen ≤ s.role.kind.limit ∧
    (e.oldBinding = none → e.oldLen = 0) ∧ e.newLen ≤ s.role.kind.limit

instance (e : RoleEvidence) (s : Store) : Decidable (e.Valid s) := by
  unfold RoleEvidence.Valid
  infer_instance

def matchesFile (s : Store) (file : Option File) (binding : Binding) (length : Nat)
    (expected : String) : Except JournalError Bool :=
  match file with
  | none => .ok false
  | some file =>
    if file.binding ≠ binding then .ok false
    else do
      let bytes ← file.readPrivateRegular length
      return bytes.length = length ∧ s.digest bytes = expected

/-- A stage that is there is removed if it passes the check. -/
def removeStage (binding : Binding) (check : File → Except JournalError Bool) : Action Unit := do
  retryPendingOwnedRegularsMatching .stage binding
  match (← Prog.get).stage with
  | some file => do
    let same ← liftM (check file)
    require (same = true) .unavailable
    removeBound .stage binding
  | none => pure ()

/-- The new content is published; the old one is in the stage, being removed, or gone. -/
def finishPublished (s : Store) (e : RoleEvidence) : Action Unit := do
  match e.oldBinding, e.oldDigest with
  | some old, some oldDigest =>
    removeStage old fun file => matchesFile s (some file) old e.oldLen oldDigest
  | _, _ => require ((← Prog.get).stage = none) .unavailable

def oldMatches (s : Store) (d : Dir) (e : RoleEvidence) : Except JournalError Bool :=
  match e.oldBinding, e.oldDigest with
  | some old, some expected => matchesFile s d.target old e.oldLen expected
  | none, none => .ok d.target.isNone
  | _, _ => .ok false

/-- The old content is in place; a stage with a first part of the new one is dropped. -/
def dropStage (s : Store) (e : RoleEvidence) : Action Unit := do
  let same ← liftM (oldMatches s (← Prog.get) e)
  require (same = true) .unavailable
  removeStage e.stageBinding fun file =>
    if file.binding ≠ e.stageBinding then .ok false
    else do
      let bytes ← file.readPrivateRegular e.newLen
      return bytes.length = e.newLen → s.digest bytes = e.newDigest

/-- An empty segment keeps the evidence of its creation until the journal refers to it. -/
def RoleEvidence.Retained (e : RoleEvidence) : Prop :=
  e.role.kind = .segment ∧ e.oldBinding = none ∧ e.newLen = 0

instance (e : RoleEvidence) : Decidable e.Retained := by
  unfold RoleEvidence.Retained
  infer_instance

def settleStage (s : Store) (e : RoleEvidence) : Action Unit := do
  let published ← liftM (matchesFile s (← Prog.get).target e.stageBinding e.newLen e.newDigest)
  if published then finishPublished s e else dropStage s e

def recoverRole (s : Store) : Action Unit := do
  resumePendingOwnedRegularCleanup .evidence
  match (← Prog.get).evidence with
  | none => require ((← Prog.get).stage = none) .stageUnavailable
  | some file => do
    let e ← liftM file.readJson
    require (e.Valid s) .unavailable
    settleStage s e
    if e.Retained then pure () else removeBound .evidence file.binding

/-- A stage without evidence was left before anything was written to it. -/
def discardEmptyUnprovedStage : Action Unit := do
  match (← Prog.get).evidence, (← Prog.get).stage with
  | none, some file => do
    require (file.bytes = []) .stageUnavailable
    removeBound .stage file.binding
  | _, _ => pure ()

/-- What a process does first that opens the journal or appends to it. -/
def recover (s : Store) : Action Unit := do
  discardEmptyUnprovedStage
  recoverRole s

/-! ## Replacement -/

/-- The content to be written, and the bindings that the two new files get. -/
structure RoleCall where
  replacement : List UInt8
  stage : Binding
  evidence : Binding

namespace RoleCall
variable (c : RoleCall) (s : Store)

def record (old : Option File) : RoleEvidence where
  role := s.role
  oldBinding := old.map (·.binding)
  oldLen := (old.map (·.bytes.length)).getD 0
  oldDigest := old.map fun file => s.digest file.bytes
  stageBinding := c.stage
  newLen := c.replacement.length
  newDigest := s.digest c.replacement

/-- The new file is empty until the whole text is written. -/
def recordCreation (e : RoleEvidence) : Action Unit := do
  require ((← Prog.get).evidence = none) .alreadyExists
  Prog.write fun d => { d with evidence := some ⟨c.evidence, none⟩ }
  Prog.write fun d => { d with evidence := some ⟨c.evidence, some e⟩ }

def writeStage (bytes : List UInt8) : Action Unit :=
  bytes.forM fun byte => Prog.write fun d =>
    { d with stage := d.stage.map fun file => { file with bytes := file.bytes ++ [byte] } }

def validateBinding (file : Option File) : Action Unit :=
  require (file.map (·.binding) = some c.stage) .stale

/-- The names change places, or the stage gets the name that nobody has. -/
def publish (old : Option File) : Action Unit := do
  require ((← Prog.get).target = old) .stale
  Prog.write fun d => { d with target := d.stage, stage := old }

def removeDisplaced (old : Option File) : Action Unit := do
  if old.isSome then
    require ((← Prog.get).stage = old) .stale
    removeOwnedRegular .stage

def replacePrivateRegularExactInRole (old : Option File) : Action Unit := do
  require ((← Prog.get).target = old) (if old.isSome then .stale else .alreadyExists)
  require ((← Prog.get).stage = none) .alreadyExists
  Prog.write fun d => { d with stage := some ⟨c.stage, []⟩ }
  c.recordCreation (c.record s old)
  c.validateBinding (← Prog.get).stage
  writeStage c.replacement
  c.validateBinding (← Prog.get).stage
  publish old
  c.validateBinding (← Prog.get).target
  removeDisplaced old
  c.validateBinding (← Prog.get).target

def replaceRole : Action Unit := do
  recoverRole s
  let d ← Prog.get
  require (d.stageRemoval = none ∧ d.evidenceRemoval = none) .unavailable
  require (c.replacement.length ≤ s.role.kind.limit) .unavailable
  require (∀ file ∈ d.target, file.bytes.length ≤ s.role.kind.limit) .exceedsLimit
  c.replacePrivateRegularExactInRole s d.target
  if (c.record s d.target).Retained then pure ()
  else
    match (← Prog.get).evidence with
    | some file => removeBound .evidence file.binding
    | none => Prog.fail .unavailable

end RoleCall

/-! ## What a removal leaves -/

attribute [local simp] Ends Dir.binding Dir.removal Dir.setRemoval Dir.hide Dir.idle resumeCleanup
  resumePendingOwnedRegularCleanup

section
attribute [local simp] retryPendingOwnedRegularsMatching removeOwnedRegular

variable {target stage : Option File} {evidence : Option EvidenceFile} {removal : Option Binding}
  {b : Binding} {C : Dir → Prop} {E : JournalError → Dir → Prop}

variable (hr : removal = some b ∨ removal = none)
  (hC : ∀ file r, file = stage ∨ file = none → r = some b ∨ r = none →
    C ⟨target, file, evidence, r, none⟩)
include hr hC

theorem removeBound_spec (hb : ∀ file, stage = some file → file.binding = b) :
    Spec (removeBound .stage b) ⟨target, stage, evidence, removal, none⟩ C
      (Ends E fun _ t => t = ⟨target, none, evidence, none, none⟩) := by
  rcases hr with rfl | rfl <;> cases stage <;> simp_all [removeBound]

theorem removeStage_spec {check : File → Except JournalError Bool}
    (hb : ∀ file, stage = some file → file.binding = b ∧ check file = .ok true) :
    Spec (removeStage b check) ⟨target, stage, evidence, removal, none⟩ C
      (Ends E fun _ t => t = ⟨target, none, evidence, none, none⟩) := by
  have hbo := removeBound_spec (E := E) hr hC fun file h => (hb file h).1
  unfold removeStage
  rcases hr with rfl | rfl <;> cases stage <;> simp_all

end

/-! ## What a call leaves -/

/-- What a recovery leaves: the target, and with it the record of a stage's removal where the
stage is gone already and no evidence is left. No recovery comes back to that. -/
def recovered (d : Dir) : Dir :=
  match d.stage, d.evidence with
  | none, none => ⟨d.target, none, none, d.stageRemoval, none⟩
  | _, _ => .idle d.target

namespace RoleCall
section
variable (c : RoleCall) (s : Store) (old : Option File)

def published : File := ⟨c.stage, c.replacement⟩

def proof : EvidenceFile := ⟨c.evidence, some (c.record s old)⟩

/-- The call gets as far as the evidence file, and does not keep it. -/
structure Admitted : Prop where
  new : c.replacement.length ≤ s.role.kind.limit
  retires : ¬ (c.record s old).Retained
  fresh : ∀ file, old = some file → file.binding ≠ c.stage
  old : ∀ file, old = some file → file.bytes.length ≤ s.role.kind.limit

/-- Before and after the names have changed places: the stage has a part of the new content, or
the old one, as far as it is there. -/
inductive Spare : Option File → Option File → Option Binding → Prop
  | before {stage removal}
      (hs : ∀ file, stage = some file → file.binding = c.stage ∧ file.bytes <+: c.replacement)
      (hr : removal = some c.stage ∨ removal = none) : Spare old stage removal
  | after {stage removal} (hs : stage = old ∨ stage = none)
      (hr : removal = old.map (·.binding) ∨ removal = none) :
      Spare (some c.published) stage removal

/-- What the call and its recoveries can leave around the target, a torn record apart. -/
inductive Left (target : Option File) : Dir → Prop
  | unproved {stage removal} (ht : target = old) (hs : stage = some ⟨c.stage, []⟩ ∨ stage = none)
      (hr : removal = some c.stage ∨ removal = none) :
      Left target ⟨target, stage, none, removal, none⟩
  | proved {stage removal} (ha : c.Admitted s old) (h : c.Spare old target stage removal) :
      Left target ⟨target, stage, some (c.proof s old), removal, none⟩
  | retiring {evidence} (ha : c.Admitted s old) (h : c.Spare old target none none)
      (he : evidence = some (c.proof s old) ∨ evidence = none) :
      Left target ⟨target, none, evidence, none, some c.evidence⟩
  | ended (ht : target = some c.published) : Left target (.idle target)

end

variable {c : RoleCall} {s : Store} {old target stage : Option File} {removal : Option Binding}
  {d : Dir} {E : JournalError → Dir → Prop}

theorem Spare.bare (h : c.Spare old target stage removal) : c.Spare old target none none := by
  cases h with
  | before => exact .before nofun (.inr rfl)
  | after => exact .after (.inr rfl) (.inr rfl)

theorem Spare.idle (h : c.Spare old target none none) : c.Left s old target (.idle target) := by
  cases h with
  | before => exact .unproved rfl (.inr rfl) (.inr rfl)
  | after => exact .ended rfl

theorem matchesFile_self (s : Store) (file : File) :
    matchesFile s (some file) file.binding file.bytes.length (s.digest file.bytes) = .ok true := by
  simp [matchesFile, File.readPrivateRegular, pure, Except.pure, bind, Except.bind]

theorem record_valid (h : c.Admitted s old) : (c.record s old).Valid s := by
  refine ⟨rfl, ?_, ?_, ?_, h.new⟩ <;> cases old <;> simp [record]
  exact h.old _ rfl

theorem dropStage_spec (ha : c.Admitted s old)
    (hs : ∀ file, stage = some file → file.binding = c.stage ∧ file.bytes <+: c.replacement)
    (hr : removal = some c.stage ∨ removal = none) :
    Spec (dropStage s (c.record s old)) ⟨old, stage, some (c.proof s old), removal, none⟩
      (c.Left s old old) (Ends E fun _ t => t = ⟨old, none, some (c.proof s old), none, none⟩) := by
  have hold : oldMatches s ⟨old, stage, some (c.proof s old), removal, none⟩ (c.record s old) =
      .ok true := by
    cases old with
    | none => rfl
    | some file => exact matchesFile_self s file
  unfold dropStage
  simp only [ends_bind, ends_get, ends_lift, hold, ok_answered, ends_require, true_implies,
    not_true_eq_false, false_implies, and_true]
  refine removeStage_spec hr ?_ ?_
  · rintro file r (rfl | rfl) hr
    · exact .proved ha (.before hs hr)
    · exact .proved ha (.before nofun hr)
  · intro file hf
    obtain ⟨hb, hp⟩ := hs file hf
    have hread : file.readPrivateRegular c.replacement.length = .ok file.bytes :=
      if_pos hp.length_le
    have hsame (h : file.bytes.length = c.replacement.length) :
        s.digest file.bytes = s.digest c.replacement := congrArg s.digest (hp.eq_of_length h)
    refine ⟨hb, ?_⟩
    simp only [record, hb, ne_eq, not_true_eq_false, if_false, hread]
    exact congrArg Except.ok (decide_eq_true hsame)

theorem finishPublished_spec (ha : c.Admitted s old) (hs : stage = old ∨ stage = none)
    (hr : removal = old.map (·.binding) ∨ removal = none) :
    Spec (finishPublished s (c.record s old))
      ⟨some c.published, stage, some (c.proof s old), removal, none⟩
      (c.Left s old (some c.published))
      (Ends E fun _ t => t = ⟨some c.published, none, some (c.proof s old), none, none⟩) := by
  cases old with
  | none =>
    obtain rfl : stage = none := hs.elim id id
    obtain rfl : removal = none := hr.elim id id
    simp [finishPublished, record]
  | some file =>
    refine removeStage_spec hr ?_ ?_
    · exact fun found r hf hr => .proved ha (.after (hf.elim (· ▸ hs) .inr) hr)
    · rintro found rfl
      obtain rfl : found = file := Option.some.inj (hs.resolve_right nofun)
      exact ⟨rfl, matchesFile_self s found⟩

theorem settleStage_spec (ha : c.Admitted s old) (h : c.Spare old target stage removal) :
    Spec (settleStage s (c.record s old)) ⟨target, stage, some (c.proof s old), removal, none⟩
      (c.Left s old target)
      (Ends E fun _ t => t = ⟨target, none, some (c.proof s old), none, none⟩) := by
  unfold settleStage
  simp only [ends_bind, ends_get, ends_lift]
  cases h with
  | before hs hr =>
    have hm : matchesFile s old (c.record s old).stageBinding (c.record s old).newLen
        (c.record s old).newDigest = .ok false := by
      cases old with
      | none => rfl
      | some file => exact if_pos (ha.fresh file rfl)
    rw [hm, ok_answered]
    exact dropStage_spec ha hs hr
  | after hs hr =>
    have hm : matchesFile s (some c.published) (c.record s old).stageBinding
        (c.record s old).newLen (c.record s old).newDigest = .ok true :=
      matchesFile_self s c.published
    rw [hm, ok_answered]
    exact finishPublished_spec ha hs hr

theorem removeEvidence_spec (ha : c.Admitted s old) (h : c.Spare old target none none) :
    Spec (removeBound .evidence c.evidence) ⟨target, none, some (c.proof s old), none, none⟩
      (c.Left s old target) (Ends E fun _ t => t = .idle target) := by
  have hl : ∀ file r, file = some (c.proof s old) ∨ file = none → r = some c.evidence ∨ r = none →
      c.Left s old target ⟨target, none, file, none, r⟩ := by
    rintro _ _ he (rfl | rfl)
    · exact .retiring ha h he
    · rcases he with rfl | rfl
      · exact .proved ha h
      · exact h.idle
  have hb : (c.proof s old).binding = c.evidence := rfl
  simp_all [removeBound, removeOwnedRegular, retryPendingOwnedRegularsMatching]

/-- There is a stage, and nothing tells whose it is. -/
def Unproved (d : Dir) : Prop := d.evidence = none ∧ d.stage ≠ none

theorem recoverRole_spec (h : c.Left s old target d) :
    Spec (recoverRole s) d (c.Left s old target) (Ends (fun _ t => t = d ∧ Unproved d)
      fun _ t => c.Left s old target t ∧ t = recovered d) := by
  unfold recoverRole
  cases h with
  | unproved ht hs hr =>
    have hl := Left.unproved (s := s) ht hs hr
    rcases hs with rfl | rfl <;> simp_all [Unproved, recovered]
  | @proved stage _ ha h =>
    have hread : (c.proof s old).readJson = .ok (c.record s old) := rfl
    simp only [ends_bind, ends_get, ends_pure, ends_lift, hread, ok_answered, ends_require,
      resumePendingOwnedRegularCleanup, Dir.removal, if_neg ha.retires]
    refine ⟨fun _ => ?_, fun hn => absurd (record_valid ha) hn⟩
    refine (settleStage_spec ha h).ends (fun _ _ h => h) ?_
    rintro - t rfl
    refine (removeEvidence_spec ha h.bare).ends (fun _ _ h => h) ?_
    rintro - t rfl
    exact ⟨h.bare.idle, by cases stage <;> rfl⟩
  | retiring ha h he =>
    have hl := Left.retiring ha h (.inr rfl)
    have hi := h.idle (s := s)
    rcases he with rfl | rfl <;> simp_all [proof, recovered]
  | ended ht => simpa [recovered] using Left.ended ht

theorem discard_spec (h : c.Left s old target d) :
    Spec discardEmptyUnprovedStage d (c.Left s old target)
      (Ends E fun _ t => c.Left s old target t ∧ ¬ Unproved t ∧ recovered t = recovered d) := by
  unfold discardEmptyUnprovedStage
  cases h with
  | unproved ht hs hr =>
    have hl (stage removal) : _ → _ → c.Left s old target ⟨target, stage, none, removal, none⟩ :=
      .unproved ht
    rcases hs with rfl | rfl
    · simp only [ends_bind, ends_get, ends_require]
      refine ⟨fun _ => ?_, fun hn => absurd trivial hn⟩
      refine (removeBound_spec hr hl (by rintro _ ⟨⟩; rfl)).ends (fun _ _ h => h) ?_
      rintro - t rfl
      exact ⟨hl _ _ (.inr rfl) (.inr rfl), by simp [Unproved], rfl⟩
    · simpa [Unproved] using hl none _ (.inr rfl) hr
  | proved ha h => simpa [Unproved] using Left.proved ha h
  | retiring ha h he =>
    have hl := Left.retiring ha h he
    rcases he with rfl | rfl <;> simpa [Unproved] using hl
  | ended ht => simpa [Unproved] using Left.ended ht

theorem recover_spec (h : c.Left s old target d) :
    Spec (recover s) d (c.Left s old target) (Ends (fun _ _ => False)
      fun _ t => c.Left s old target t ∧ t = recovered d) := by
  unfold recover
  rw [ends_bind]
  refine (discard_spec h).ends (fun _ _ h => h) ?_
  rintro - t ⟨hl, hp, hre⟩
  exact (recoverRole_spec hl).ends (fun _ _ h => hp h.2) fun _ _ h => hre ▸ h

def Torn (c : RoleCall) (old : Option File) : Dir :=
  ⟨old, some ⟨c.stage, []⟩, some ⟨c.evidence, none⟩, none, none⟩

/-- Everything that a crash of the call can leave. -/
def Stopped (c : RoleCall) (s : Store) (old : Option File) (d : Dir) : Prop :=
  d = c.Torn old ∨ c.Left s old old d ∨ c.Left s old (some c.published) d

theorem writeStage_spec {bytes done} (ha : c.Admitted s old) (h : done ++ bytes <+: c.replacement) :
    Spec (writeStage bytes) ⟨old, some ⟨c.stage, done⟩, some (c.proof s old), none, none⟩
      (c.Stopped s old) (Ok fun _ t =>
        t = ⟨old, some ⟨c.stage, done ++ bytes⟩, some (c.proof s old), none, none⟩) := by
  induction bytes generalizing done with
  | nil => exact ok_pure.mpr (by rw [List.append_nil])
  | cons byte rest ih =>
    rw [List.append_cons] at h ⊢
    change Spec (_ >>= fun _ => writeStage rest) _ _ _
    rw [ok_bind, ok_write]
    refine ⟨.inr (.inl (.proved ha (.before (fun file hf => ?_) (.inr rfl)))), ih h⟩
    cases hf
    exact ⟨rfl, (List.prefix_append _ _).trans h⟩

theorem removeDisplaced_spec (ha : c.Admitted s old) :
    Spec (removeDisplaced old) ⟨some c.published, old, some (c.proof s old), none, none⟩
      (c.Stopped s old) (Ok fun _ t =>
        t = ⟨some c.published, none, some (c.proof s old), none, none⟩) := by
  have hl (stage removal) (hs : stage = old ∨ stage = none)
      (hr : removal = old.map (·.binding) ∨ removal = none) : c.Stopped s old
        ⟨some c.published, stage, some (c.proof s old), removal, none⟩ :=
    .inr (.inr (.proved ha (.after hs hr)))
  cases old <;> simp_all [removeDisplaced, removeOwnedRegular]

theorem replacePrivateRegularExactInRole_spec (ha : c.Admitted s old) :
    Spec (c.replacePrivateRegularExactInRole s old) (.idle old) (c.Stopped s old)
      (Ok fun _ t => t = ⟨some c.published, none, some (c.proof s old), none, none⟩) := by
  unfold replacePrivateRegularExactInRole recordCreation validateBinding publish
  simp only [ok_bind, ok_get, ok_require, ok_write, Dir.idle, true_implies]
  refine ⟨.inr (.inl (.unproved rfl (.inl rfl) (.inr rfl))), .inl rfl, ?_, fun _ => ?_⟩
  · refine .inr (.inl (.proved ha (.before (fun file hf => ?_) (.inr rfl))))
    cases hf
    exact ⟨rfl, List.nil_prefix⟩
  refine (writeStage_spec ha (List.prefix_refl _)).imp ?_
  rintro - t rfl _ _
  refine ⟨.inr (.inr (.proved ha (.after (.inl rfl) (.inr rfl)))), fun _ => ?_⟩
  refine (removeDisplaced_spec ha).imp ?_
  rintro - t rfl _
  rfl

theorem replaceRole_spec (hk : ¬ (c.record s old).Retained)
    (hf : ∀ file, old = some file → file.binding ≠ c.stage) :
    Spec (c.replaceRole s) (.idle old) (c.Stopped s old)
      (Ok fun _ t => t = .idle (some c.published)) := by
  have hrec : Spec (recoverRole s) (.idle old) (c.Stopped s old) (Ok fun _ t => t = .idle old) :=
    ok_pure.mpr rfl
  unfold replaceRole
  rw [ok_bind]
  refine hrec.imp ?_
  rintro - t rfl
  simp only [ok_bind, ok_get, ok_require]
  intro _ hn ho
  have ha : c.Admitted s old := ⟨hn, hk, hf, ho⟩
  refine (replacePrivateRegularExactInRole_spec ha).imp ?_
  rintro - t rfl
  have hk : ¬ (c.record s (Dir.idle old).target).Retained := hk
  simp only [if_neg hk, ok_bind, ok_get]
  refine (removeEvidence_spec (E := fun _ _ => True) ha (.after (.inr rfl) (.inr rfl))).mono
    (fun _ h => .inr (.inr h)) fun r t h => ?_
  cases r with
  | ok a => exact h
  | error e => trivial

end RoleCall

/-! ## Replacements -/

/-- A recovery, with or without the stage that nobody owns, that is over or has died. -/
inductive Recovery (s : Store) (d t : Dir) : Prop
  | role (h : t ∈ (recoverRole s).exposed d)
  | all (h : t ∈ (recover s).exposed d)

/-- A recovery that is not cut off succeeds and leaves what it should. -/
structure Recovers (s : Store) (d : Dir) : Prop where
  answer : (recover s).answer d = .ok ()
  final : (recover s).final d = recovered d

section
variable {c : RoleCall} {s : Store} {old target : Option File} {d t : Dir}

theorem recovery_stays (hr : (recoverRole s d).1 = []) (ha : (recover s d).1 = [])
    (hrun : ReflTransGen (Recovery s) d t) : t = d := by
  refine Reach.invariant (p := (· = d)) (fun a b hl hs => ?_) rfl hrun
  subst hl
  cases hs with
  | role hm => simpa [Prog.exposed, hr] using hm
  | all hm => simpa [Prog.exposed, ha] using hm

theorem RoleCall.Left.runs (h : c.Left s old target d) (hrun : ReflTransGen (Recovery s) d t) :
    Recovers s t ∧ t.content = target.map (·.bytes) := by
  have hl : c.Left s old target t := by
    refine Reach.invariant (fun a b hl hs => ?_) h hrun
    cases hs with
    | role hm => exact (RoleCall.recoverRole_spec hl).exposed hl _ hm
    | all hm => exact (RoleCall.recover_spec hl).exposed hl _ hm
  obtain ⟨⟨⟩, hok, -, hre⟩ := (RoleCall.recover_spec hl).answers
  exact ⟨⟨hok, hre⟩, by cases hl <;> rfl⟩

end

/-- **A role file is replaced as a whole.** Wherever the call dies with its evidence file written,
and however often recovery dies after it, the role has the old or the new content, and a recovery
that is not cut off leaves nothing else, save for the record of a stage's removal that a recovery
was cut off in. After a call that has succeeded it is the new content. -/
theorem role_replacement_atomic {s : Store} {c : RoleCall} {old : Option File}
    (hfresh : ∀ file, old = some file → file.binding ≠ c.stage)
    (hkept : ¬ (s.role.kind = .segment ∧ old = none ∧ c.replacement = [])) :
    (∀ d ∈ (c.replaceRole s).exposed (.idle old),
      (∀ file, d.evidence = some file → file.record ≠ none) →
      ∀ t, ReflTransGen (Recovery s) d t → Recovers s t ∧
        (t.content = old.map (·.bytes) ∨ t.content = some c.replacement)) ∧
    ((c.replaceRole s).answer (.idle old) = .ok () →
      ∀ t, ReflTransGen (Recovery s) ((c.replaceRole s).final (.idle old)) t →
        Recovers s t ∧ t.content = some c.replacement) := by
  have hk : ¬ (c.record s old).Retained := by
    rintro ⟨hs, ho, hn⟩
    exact hkept ⟨hs, Option.map_eq_none_iff.mp ho, List.length_eq_zero_iff.mp hn⟩
  have hspec := RoleCall.replaceRole_spec hk hfresh
  refine ⟨fun d hd hwhole t hrun => ?_, fun hok t hrun => ?_⟩
  · have hstop := hspec.exposed (.inr (.inl (.unproved rfl (.inr rfl) (.inr rfl)))) d hd
    rcases hstop with rfl | hl | hl
    · exact absurd rfl (hwhole _ rfl)
    · exact (hl.runs hrun).imp_right .inl
    · exact (hl.runs hrun).imp_right .inr
  · rw [hspec.ok hok] at hrun
    exact (RoleCall.Left.ended rfl : c.Left s old _ _).runs hrun

def manifestStore : Store := ⟨⟨7, 1, .manifest, "manifest.json"⟩, fun _ => "0"⟩

def manifestCall : RoleCall := ⟨[1, 2], 2, 3⟩

theorem manifest_replaced :
    (manifestCall.replaceRole manifestStore).answer (.idle (some ⟨1, [9]⟩)) = .ok () ∧
    ∀ t, ReflTransGen (Recovery manifestStore)
        ((manifestCall.replaceRole manifestStore).final (.idle (some ⟨1, [9]⟩))) t →
      Recovers manifestStore t ∧ t.content = some [1, 2] := by
  have hok : (manifestCall.replaceRole manifestStore).answer (.idle (some ⟨1, [9]⟩)) = .ok () := by
    decide +kernel
  exact ⟨hok, (role_replacement_atomic (by rintro _ ⟨⟩; decide) (by decide)).2 hok⟩

def segmentStore : Store := ⟨⟨7, 1, .segment, "segment-1.jsonl"⟩, fun _ => "0"⟩

def segmentCall : RoleCall := ⟨[], 2, 3⟩

/-- Recovery refuses an evidence file that was not written to its end, for good, and keeps that of
an empty segment. -/
theorem evidence_left :
    (manifestCall.Torn none ∈ (manifestCall.replaceRole manifestStore).exposed (.idle none) ∧
      ∀ t, ReflTransGen (Recovery manifestStore) (manifestCall.Torn none) t →
        t.evidence ≠ none ∧ (recover manifestStore).answer t = .error .unavailable) ∧
    (segmentCall.replaceRole segmentStore).answer (.idle none) = .ok () ∧
    ∀ t, ReflTransGen (Recovery segmentStore)
        ((segmentCall.replaceRole segmentStore).final (.idle none)) t →
      t.evidence ≠ none ∧ (recover segmentStore).answer t = .ok () := by
  have hm : ((manifestCall.replaceRole manifestStore).exposed (.idle none))[2]? =
      some (manifestCall.Torn none) := rfl
  refine ⟨⟨List.mem_of_getElem? hm, fun t hrun => ?_⟩, by decide +kernel, fun t hrun => ?_⟩
  · obtain rfl := recovery_stays rfl rfl hrun
    exact ⟨nofun, rfl⟩
  · obtain rfl := recovery_stays rfl rfl hrun
    exact ⟨nofun, rfl⟩

end MacWorker.Journal
