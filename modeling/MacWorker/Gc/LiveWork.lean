import MacWorker.Gc.Pass

/-! # What a pass removes

A pass is judged by the host as it was before it. Not every kind of candidate is held
against all of the inventory. For each kind we say what no check asks, and show that a
removal is safe exactly when that holds. -/
namespace MacWorker.Gc
open Fallible Durable List

/-! ## Live work -/

section
variable (host : GcHost) (request : GcRequest)

def GcHost.Leased (project : String) (id : TaskId) : Prop :=
  ∃ slots, host.leases = some slots ∧ ∃ slot ∈ slots, slot.ownsTask project id = true

inductive Live (project : String) (id : TaskId) : Prop
  | leased (hleased : host.Leased project id)
  | unfinished {directory : TaskDirectory} {status : StoredStatus}
      (hdirectory : host.tasks.lookup (project, id) = some (some directory))
      (hstatus : directory.status = some status)
      (hgoing : isTerminal status.state = false ∨ ∃ turn ∈ status.turns, turn.terminal = none)
  | integrating {directory : TaskDirectory} {status : StoredStatus}
      {record : Option Integration.IntegrationRecord} {armed : Bool}
      (hdirectory : host.tasks.lookup (project, id) = some (some directory))
      (hstatus : directory.status = some status)
      (hrecord : directory.integration = some (record, armed))
      (hretains : integrationRetains record armed status = true)
  | delivering {directory : TaskDirectory} {intents : Directory TurnId (Option DeliveryIntent)}
      {turn : TurnId} {intent : DeliveryIntent}
      (hdirectory : host.tasks.lookup (project, id) = some (some directory))
      (hintents : directory.intents = some intents)
      (hintent : intents.lookup turn = some (some intent))
      (hstate : intent.state.retainsObjects = true)

def GcHost.UnreadTasks (project : String) : Prop :=
  project ∈ host.strayTasks ∨ ∃ id entry, host.tasks.lookup (project, id) = some entry ∧
    ∀ directory, entry = some directory → directory.info = none ∨ directory.status = none

def GcHost.UnreadJobs (project : String) : Prop :=
  project ∈ host.strayJobs ∨ ∃ worktree id entry,
    host.jobs.lookup (project, worktree, id) = some entry ∧
      ∀ job, entry = some job → job.info = none ∨ job.status = none

def Removal.project : Removal → String
  | .ref project _ | .task project _ | .job project _ _ | .mirror project => project

/-- What is removed belongs to the task. A job belongs to the task that has it as a turn. -/
def Removal.Of : Removal → TaskId → Prop
  | .ref _ r, id => r.name.task = some id
  | .task _ id', id => id' = id
  | .job project worktree turnId, id => ∃ directory info status,
      host.tasks.lookup (project, id) = some (some directory) ∧ directory.info = some info ∧
      directory.status = some status ∧ info.worktreeId = worktree ∧
      ∃ turn ∈ status.turns, turn.turnId = turnId
  | .mirror _, _ => True

/-- How long a ref of a task without a record is kept. -/
def GcRequest.refRetention : RefName → Nat
  | .session _ => request.taskRetentionMillis
  | _ => request.branchRetentionMillis

/-- A ref of a task that has no record yet, in the mirror for less than the retention. -/
def Removal.Recent : Removal → Prop
  | .ref project r => (∃ id, r.name.task = some id ∧ host.tasks.lookup (project, id) = none) ∧
      expired request.nowMillis r.createdAtMillis (request.refRetention r.name) = false
  | _ => False

structure Safe (d : Removal) : Prop where
  leases : host.leases ≠ none
  tasks : ¬ host.UnreadTasks d.project
  jobs : ¬ host.UnreadJobs d.project
  idle : ∀ id, d.Of host id → ¬ Live host d.project id
  settled : ¬ d.Recent host request

/-- What no check of a pass asks before the removal. Nothing looks at the job records of the
project. Task records that cannot be read hold back only mirrors, session refs and refs of
tasks without a record. Branch, base and delivery refs of a task without a record, and
mirrors, go without a look at the leases, and refs of such tasks by the date of a commit or of
a file. A finished job goes whatever its task is doing. -/
def Removal.Held : Removal → Prop
  | .ref project r => ¬ host.UnreadJobs project ∧ ¬ (Removal.ref project r).Recent host request ∧
      ∀ id, r.name.task = some id → r.name ≠ .session id →
        if host.tasks.lookup (project, id) = none
        then host.leases ≠ none ∧ ¬ host.Leased project id else ¬ host.UnreadTasks project
  | .task project _ => ¬ host.UnreadJobs project ∧ ¬ host.UnreadTasks project
  | .job project worktree id => ¬ host.UnreadJobs project ∧ ¬ host.UnreadTasks project ∧
      ∀ task, (Removal.job project worktree id).Of host task → ¬ Live host project task
  | .mirror project => ¬ host.UnreadJobs project ∧ host.leases ≠ none ∧
      ∀ id, ¬ host.Leased project id

end

/-! ## What a collection knows -/

section
variable {host : GcHost} {request : GcRequest} {project : String} {id : TaskId}
  {directory : TaskDirectory} {snapshot : TaskSnapshot} {refs : Bool}

theorem read_eq_ok {α : Type} {file : Option α} {a : α} : read file = .ok a ↔ file = some a := by
  cases file <;> simp [read]

/-- The task has a record, and nothing is left to do for it. -/
structure Settled (host : GcHost) (project : String) (id : TaskId) : Prop where
  recorded : host.tasks.lookup (project, id) ≠ none
  leases : host.leases ≠ none
  idle : ¬ Live host project id

theorem turnsActive_false {worktree jobs turns}
    (h : host.turnsActive project worktree jobs turns = .ok false) :
    ∀ turn ∈ turns, turn.terminal ≠ none := by
  induction turns with
  | nil => simp
  | cons turn rest ih =>
    unfold GcHost.turnsActive at h
    obtain ⟨ht, h⟩ := of_unless h
    have hr : host.turnsActive project worktree jobs rest = .ok false := by
      split at h
      · exact h
      · obtain ⟨⟨state, _⟩, -, h⟩ := of_bind h
        dsimp only at h
        obtain ⟨-, h⟩ := of_if h
        exact h
    grind

theorem outboxRetains_false {now intents turn intent}
    (h : host.outboxRetains project id directory now = .ok false)
    (hin : directory.intents = some intents) (hit : intents.lookup turn = some (some intent)) :
    intent.state.retainsObjects = false := by
  have hm : ⟨turn, some intent⟩ ∈ intents.entries := AList.mem_lookup_iff.mp hit
  by_contra hs
  rw [Bool.not_eq_false] at hs
  have hr : intents.entries.any (fun entry => entry.2.all (·.retained now)) = true :=
    any_eq_true.mpr ⟨_, hm, by simp [DeliveryIntent.retained, hs]⟩
  simp [GcHost.outboxRetains, hin, hr] at h

theorem leased_iff {slots} (hs : host.leases = some slots) :
    host.Leased project id ↔ (project, id) ∈ liveTaskScopes slots := by
  simp only [GcHost.Leased, hs, Option.some.injEq, exists_eq_left', liveTaskScopes,
    mem_filterMap, OccupiedSlot.ownsTask]
  refine exists_congr fun slot => and_congr_right fun _ => ?_
  cases slot.scope <;> simp

theorem readTaskRecord_settled (hd : host.tasks.lookup (project, id) = some (some directory))
    (h : host.readTaskRecord request project id directory = .ok (snapshot, refs))
    (hid : snapshot.activeWork = false) (ht : isTerminal snapshot.state = true) :
    Settled host project id := by
  obtain ⟨info, -, h⟩ := of_bind h
  obtain ⟨status, hs, h⟩ := of_bind h
  obtain ⟨-, h⟩ := of_then h
  obtain ⟨refs, -, h⟩ := of_bind h
  obtain ⟨active, ha, h⟩ := of_bind h
  obtain ⟨-, h⟩ := of_then h
  cases h
  obtain rfl : active = false := hid
  cases hsl : host.leases with
  | none => simp [hsl] at ha
  | some slots =>
    obtain ⟨hle, ha⟩ := of_unless ha
    obtain ⟨⟨record, armed⟩, hr, ha⟩ := of_bind ha
    dsimp only at ha
    obtain ⟨hre, ha⟩ := of_unless ha
    obtain ⟨turns, htu, ha⟩ := of_bind ha
    cases turns with
    | true => cases ha
    | false =>
      have hs := read_eq_ok.mp hs
      have hr := read_eq_ok.mp hr
      refine ⟨by simp [hd], by simp [hsl], fun hl => ?_⟩
      cases hl with
      | leased h => simp_all [leased_iff hsl]
      | unfinished hdi hst hg =>
        cases hd.symm.trans hdi
        cases hs.symm.trans hst
        rcases hg with hg | ⟨turn, htr, hn⟩
        · exact absurd (hg.symm.trans ht) nofun
        · exact turnsActive_false htu turn htr hn
      | integrating hdi hst hrc hrt => simp_all
      | delivering hdi hin hit hsa =>
        cases hd.symm.trans hdi
        rw [outboxRetains_false ha hin hit] at hsa
        cases hsa

theorem taskRecord_eq_some : host.taskRecord request project id = some (snapshot, refs) ↔
    ∃ directory, host.tasks.lookup (project, id) = some (some directory) ∧
      host.readTaskRecord request project id directory = .ok (snapshot, refs) := by
  have hto : ∀ x : Checked (TaskSnapshot × Bool), x.toOption = some (snapshot, refs) ↔
      x = .ok (snapshot, refs) := fun x => by cases x <;> simp [Except.toOption]
  simp [GcHost.taskRecord, Option.bind_eq_some_iff, Option.join_eq_some_iff, hto]

theorem survey_settled (h : (host.survey request).tasks project id = some snapshot)
    (hid : snapshot.activeWork = false) (ht : isTerminal snapshot.state = true) :
    Settled host project id := by
  obtain ⟨⟨_, refs⟩, hr, rfl⟩ := Option.map_eq_some_iff.mp h
  obtain ⟨directory, hd, hre⟩ := taskRecord_eq_some.mp hr
  exact readTaskRecord_settled hd hre hid ht

theorem recorded_of_certain (h : project ∉ (host.survey request).uncertainTaskProjects)
    (hen : host.tasks.lookup (project, id) ≠ none) :
    ∃ directory snapshot refs, host.tasks.lookup (project, id) = some (some directory) ∧
      host.readTaskRecord request project id directory = .ok (snapshot, refs) := by
  have hk : (project, id) ∈ host.tasks.keys :=
    AList.mem_keys.mp (AList.lookup_isSome.mp (Option.isSome_iff_ne_none.mpr hen))
  have hs : host.taskRecord request project id ≠ none := by
    intro hn
    refine h (mem_append_right _ (mem_map.mpr ⟨(project, id), ?_, rfl⟩))
    exact mem_filter.mpr ⟨hk, by simp [hn]⟩
  obtain ⟨⟨snapshot, refs⟩, hr⟩ := Option.ne_none_iff_exists'.mp hs
  obtain ⟨directory, hf⟩ := taskRecord_eq_some.mp hr
  exact ⟨directory, snapshot, refs, hf⟩

theorem not_unreadTasks_of_certain (h : project ∉ (host.survey request).uncertainTaskProjects) :
    ¬ host.UnreadTasks project := by
  rintro (hs | ⟨id, entry, hen, hf⟩)
  · exact h (mem_append_left _ hs)
  · obtain ⟨directory, snapshot, refs, hd, hr⟩ :=
      recorded_of_certain h (hen ▸ Option.some_ne_none entry)
    obtain ⟨info, hin, hr⟩ := of_bind hr
    obtain ⟨status, hst, -⟩ := of_bind hr
    have := hf directory (Option.mem_unique hen hd)
    simp [read_eq_ok.mp hin, read_eq_ok.mp hst] at this

/-- What a candidate stands for. A branch can be a candidate for an old date, if the task
records of the project can be read. -/
def GcCandidate.Due (host : GcHost) (request : GcRequest) : GcCandidate → Prop
  | .taskMetadata project id => Settled host project id
  | .branch project id => Settled host project id ∨
      project ∉ (host.survey request).uncertainTaskProjects
  | .session project id =>
      ((host.survey request).tasks project id).isSome → Settled host project id
  | _ => True

theorem collectTasks_due : ∀ x ∈ host.collectTasks request, x.Due host request := by
  intro x hx
  obtain ⟨⟨project, id⟩, -, hx⟩ := mem_flatMap.mp hx
  dsimp only at hx
  split at hx
  · cases hx
  · rename_i snapshot refs hr
    obtain ⟨directory, hd, hre⟩ := taskRecord_eq_some.mp hr
    have hs := readTaskRecord_settled hd hre
    unfold taskCandidates at hx
    simp only [GcCandidate.Due]
    grind

theorem refCandidate_due {mirror ref created x}
    (h : refCandidate request (host.survey request) project mirror ref created = some x) :
    x.Due host request := by
  have hb : ∀ id, (if branchDue request (host.survey request) project id created
        then some (.branch project id) else none) = some x → x.Due host request := by
    intro id h
    obtain ⟨hd, h⟩ := of_if h
    cases h
    simp only [branchDue, Bool.and_eq_true] at hd
    exact .inr (by simpa using hd.1.1)
  unfold refCandidate at h
  split at h
  · rename_i id _
    obtain ⟨hd, h⟩ := of_if h
    cases h
    intro hso
    obtain ⟨snapshot, hs⟩ := Option.isSome_iff_exists.mp hso
    simp only [sessionDue, hs, Bool.and_eq_true, Bool.not_eq_true'] at hd
    exact survey_settled hs hd.2.2 hd.2.1
  · exact hb _ h
  · exact hb _ h
  · cases h

theorem collectMirrors_due :
    ∀ x ∈ host.collectMirrors request (host.survey request), x.Due host request := by
  intro x hx
  obtain ⟨⟨project, mirror⟩, -, hx⟩ := mem_flatMap.mp hx
  cases hc : collectMirror request (host.survey request) project mirror with
  | error => simp [hc, Except.toOption] at hx
  | ok found =>
    rw [hc] at hx
    obtain ⟨refs, -, h⟩ := of_bind hc
    obtain ⟨ages, -, h⟩ := of_bind h
    cases h
    rcases mem_append.mp hx with hx | hx
    · obtain ⟨age, -, hx⟩ := mem_filterMap.mp hx
      exact refCandidate_due hx
    · split at hx
      · cases mem_singleton.mp hx
        trivial
      · cases hx

theorem collect_due {x} (hx : x ∈ host.collect request) : x.Due host request := by
  unfold GcHost.collect at hx
  simp only [mem_dedup, mem_append] at hx
  rcases hx with (hx | hx) | hx
  · exact collectTasks_due x hx
  · obtain ⟨_, -, rfl⟩ := mem_map.mp hx
    trivial
  · exact collectMirrors_due x hx

end

/-! ## Judging a removal -/

section
variable {host : GcHost} {request : GcRequest} {project : String} {id : TaskId}

/-- The removal was safe if nothing forbade it that the pass does not ask. -/
def Judged (host : GcHost) (request : GcRequest) (d : Removal) : Prop :=
  d.Held host request → Safe host request d

theorem Safe.held {d} (h : Safe host request d) : d.Held host request := by
  cases d with
  | task project id => exact ⟨h.jobs, h.tasks⟩
  | job project worktree id => exact ⟨h.jobs, h.tasks, h.idle⟩
  | mirror project => exact ⟨h.jobs, h.leases, fun id hl => h.idle id trivial (.leased hl)⟩
  | ref project r =>
    refine ⟨h.jobs, h.settled, fun id hn _ => ?_⟩
    split
    · exact ⟨h.leases, fun hl => h.idle id hn (.leased hl)⟩
    · exact h.tasks

theorem not_live_of_unrecorded (hr : host.tasks.lookup (project, id) = none)
    (hl : ¬ host.Leased project id) : ¬ Live host project id := by
  intro hli
  cases hli with
  | leased h => exact hl h
  | unfinished h => rw [hr] at h; cases h
  | integrating h => rw [hr] at h; cases h
  | delivering h => rw [hr] at h; cases h

theorem judged_ref_settled {ref} (hs : Settled host project id) (hn : ref.name.task = some id)
    (ht : ref.name = .session id → ¬ host.UnreadTasks project) :
    Judged host request (.ref project ref) := by
  intro hh
  refine ⟨hs.leases, ?_, hh.1, fun id' hof => ?_, hh.2.1⟩
  · by_cases hse : ref.name = .session id
    · exact ht hse
    · have hr := hh.2.2 id hn hse
      rwa [if_neg hs.recorded] at hr
  · cases hn.symm.trans hof
    exact hs.idle

theorem judged_ref_unrecorded {ref} (hn : ref.name.task = some id)
    (hr : host.tasks.lookup (project, id) = none) (ht : ¬ host.UnreadTasks project)
    (hl : ref.name = .session id → host.leases ≠ none ∧ ¬ host.Leased project id) :
    Judged host request (.ref project ref) := by
  intro hh
  have hl : host.leases ≠ none ∧ ¬ host.Leased project id := by
    by_cases hse : ref.name = .session id
    · exact hl hse
    · have hle := hh.2.2 id hn hse
      rwa [if_pos hr] at hle
  refine ⟨hl.1, ht, hh.1, fun id' hof => ?_, hh.2.1⟩
  cases hn.symm.trans hof
  exact not_live_of_unrecorded hr hl.2

theorem session_judged (hc : project ∉ (host.survey request).uncertainTaskProjects)
    (hl : host.leases ≠ none ∧ ¬ host.Leased project id)
    (hd : (GcCandidate.session project id).Due host request) {ref : MirrorRef}
    (hn : ref.name = .session id) : Judged host request (.ref project ref) := by
  have hre := not_unreadTasks_of_certain hc
  have ht : ref.name.task = some id := by rw [hn]; rfl
  by_cases hr : host.tasks.lookup (project, id) = none
  · exact judged_ref_unrecorded ht hr hre fun _ => hl
  · obtain ⟨directory, snapshot, refs, hf⟩ := recorded_of_certain hc hr
    refine judged_ref_settled (hd ?_) ht fun _ => hre
    simp [GcHost.survey, taskRecord_eq_some.mpr ⟨directory, hf⟩]

end

/-! ## Applying candidates -/

section
variable {host₀ host : GcHost} {request : GcRequest} {project : String} {id : TaskId}

/-- The host in a pass that began at `host₀`. -/
structure Reviewed (host₀ : GcHost) (request : GcRequest) (host : GcHost) : Prop where
  judged : ∀ d ∈ host.removed, Judged host₀ request d
  leases : host.leases = host₀.leases

theorem Reviewed.removes (h : Reviewed host₀ request host) {host' d}
    (hr : host'.removed = host.removed ++ [d]) (hl : host'.leases = host.leases)
    (hd : Judged host₀ request d) : Reviewed host₀ request host' := by
  refine ⟨fun d' hd' => ?_, hl.trans h.leases⟩
  rcases mem_append.mp (hr ▸ hd') with hd' | hd'
  · exact h.judged d' hd'
  · rwa [mem_singleton.mp hd']

theorem Reviewed.deleteRef (h : Reviewed host₀ request host) {ref : MirrorRef} {now : Nat}
    (href : Judged host₀ request (.ref project ref)) :
    Reviewed host₀ request (host.deleteRef project ref now) := by
  unfold GcHost.deleteRef
  split
  · exact h
  · exact h.removes rfl rfl href

abbrev Keeps (host₀ : GcHost) (request : GcRequest) {α : Type} (m : GcM α) (host : GcHost) : Prop :=
  Spec m host (Reviewed host₀ request) (Ok fun _ => Reviewed host₀ request)

theorem keeps_checked (h : Reviewed host₀ request host) {check : GcHost → Checked Bool}
    {remove : GcHost → GcM Bool} (hr : check host = .ok true →
      Keeps host₀ request (remove host) host) :
    Keeps host₀ request (do
      let host ← Prog.get
      if ← check host then remove host else return false) host := by
  simp only [Keeps, ok_bind, ok_get, ok_lift]
  intro due hd
  cases due with
  | false => exact ok_pure.mpr h
  | true => exact hr hd

theorem keeps_write {f} (h : Reviewed host₀ request (f host)) :
    Keeps host₀ request (do Prog.write f; return true) host := by
  simp only [Keeps, ok_bind, ok_write, ok_pure]
  exact ⟨h, h⟩

theorem keeps_deleteRefs (h : Reviewed host₀ request host) {named : RefName → Bool}
    (href : ∀ ref : MirrorRef, named ref.name = true → Judged host₀ request (.ref project ref)) :
    Keeps host₀ request (deleteRefs request project named) host := by
  unfold Keeps deleteRefs
  simp only [ok_bind, ok_get]
  cases hm : host.mirrors.lookup project with
  | none => exact ok_pure.mpr h
  | some mirror =>
    simp only [ok_bind, ok_lift, ok_pure]
    intro refs _
    refine ok_forM (fun ref hf host hh => ?_) h
    have hj := href ref (mem_filter.mp hf).2
    exact ok_write.mpr ⟨hh.deleteRef hj, hh.deleteRef hj⟩

variable (h : Reviewed host₀ request host)
include h

theorem keeps_applySessionRef (hd : (GcCandidate.session project id).Due host₀ request) :
    Keeps host₀ request (applySessionRef request (host₀.survey request) project id) host := by
  refine keeps_checked h fun hs => ?_
  unfold GcHost.sessionStillDue at hs
  obtain ⟨hb, hs⟩ := of_unless hs
  simp only [Bool.or_eq_true, not_or, contains_iff_mem] at hb
  obtain ⟨⟨⟨hc, hl⟩, hsc⟩, -⟩ := hb
  obtain ⟨slots, hsl⟩ : ∃ slots, host₀.leases = some slots := by
    simpa [GcHost.survey, ← Option.ne_none_iff_exists'] using hl
  simp only [GcHost.survey, hsl, Option.getD_some] at hsc
  refine keeps_deleteRefs h fun ref hn => ?_
  exact session_judged hc ⟨by simp [hsl], by rwa [leased_iff hsl]⟩ hd (beq_iff_eq.mp hn)

theorem keeps_applyBranch (hd : (GcCandidate.branch project id).Due host₀ request) :
    Keeps host₀ request (applyBranch request (host₀.survey request) project id) host := by
  refine keeps_checked h fun hst => ?_
  -- A record that was read is settled now.
  have hs : ((host₀.survey request).tasks project id).isSome → Settled host₀ project id := by
    intro hso
    obtain ⟨snapshot, hsn⟩ := Option.isSome_iff_exists.mp hso
    simp only [GcHost.branchStillDue, hsn] at hst
    obtain ⟨hk, hst⟩ := of_unless hst
    simp only [TaskSnapshot.keepsBranch, Bool.or_eq_true, not_or, Bool.not_eq_true,
      Bool.not_eq_false'] at hk
    exact survey_settled hsn hk.1.1 hk.1.2
  have hr : ∀ named : RefName → Bool, (∀ name, named name = true →
      name.task = some id ∧ name ≠ .session id) → ∀ host, Reviewed host₀ request host →
      Keeps host₀ request (deleteRefs request project named) host := by
    intro named hna host hh
    refine keeps_deleteRefs hh fun ref href => ?_
    obtain ⟨ht, hse⟩ := hna ref.name href
    by_cases hre : host₀.tasks.lookup (project, id) = none
    · have hc := hd.resolve_left fun hs => hs.recorded hre
      exact judged_ref_unrecorded ht hre (not_unreadTasks_of_certain hc) fun h => absurd h hse
    · refine judged_ref_settled ?_ ht fun h => absurd h hse
      rcases hd with hs | hc
      · exact hs
      · obtain ⟨directory, snapshot, refs, hf⟩ := recorded_of_certain hc hre
        exact hs (by simp [GcHost.survey, taskRecord_eq_some.mpr ⟨directory, hf⟩])
  have hn : ∀ name : RefName, name.task = some id → name ≠ .session id →
      ∀ other, (other == name) = true → other.task = some id ∧ other ≠ .session id := by
    intro name ht hse other hot
    rw [beq_iff_eq.mp hot]
    exact ⟨ht, hse⟩
  split
  · exact ok_pure.mpr h
  simp only [Keeps, ok_bind, ok_pure]
  refine (hr _ (hn (.branch id) rfl nofun) host h).imp fun _ host h => ?_
  refine (hr _ (hn (.base id) rfl nofun) host h).imp fun _ host h => ?_
  refine (keeps_applySessionRef h hs).imp fun _ host h => ?_
  refine (hr (isDeliveryOf id) ?_ host h).imp fun _ host h => h
  intro name hn
  cases name with
  | delivery owner turn text =>
    obtain rfl : owner = id := beq_iff_eq.mp hn
    exact ⟨rfl, nofun⟩
  | _ => cases hn

theorem keeps_applyJob {worktree : String} {job : JobId} :
    Keeps host₀ request (applyJob request project worktree job) host := by
  refine keeps_checked h fun hdu => keeps_write (h.removes rfl rfl ?_)
  unfold GcHost.jobStillDue at hdu
  split at hdu
  · cases hdu
  obtain ⟨directory, -, hdu⟩ := of_bind hdu
  obtain ⟨info, -, hdu⟩ := of_bind hdu
  obtain ⟨⟨state, updatedAtMillis⟩, -, hdu⟩ := of_bind hdu
  dsimp only at hdu
  split at hdu
  · cases hdu
  obtain ⟨slots, hsl, -⟩ := of_bind hdu
  have hl := h.leases.symm.trans (read_eq_ok.mp hsl)
  exact fun ⟨hj, ht, hid⟩ => ⟨by simp [hl], ht, hj, hid, nofun⟩

theorem keeps_applyMirror :
    Keeps host₀ request (applyMirror request (host₀.survey request) project) host := by
  refine keeps_checked h fun hdu => keeps_write (h.removes rfl rfl ?_)
  unfold GcHost.mirrorStillDue at hdu
  split at hdu
  · cases hdu
  obtain ⟨refs, -, hdu⟩ := of_bind hdu
  unfold mirrorDue at hdu
  obtain ⟨hb, hdu⟩ := of_unless hdu
  simp only [Bool.or_eq_true, not_or, contains_iff_mem] at hb
  obtain ⟨⟨-, hp⟩, hc⟩ := hb
  have hr : ∀ id, host₀.tasks.lookup (project, id) = none := by
    intro id
    by_contra hr
    obtain ⟨directory, _, _, hd, -⟩ := recorded_of_certain hc hr
    refine hp (mem_map.mpr ⟨⟨(project, id), some directory⟩, ?_, rfl⟩)
    exact mem_filter.mpr ⟨AList.mem_lookup_iff.mp hd, rfl⟩
  exact fun ⟨hj, hl, hle⟩ => ⟨hl, not_unreadTasks_of_certain hc, hj,
    fun id _ => not_live_of_unrecorded (hr id) (hle id), nofun⟩

theorem keeps_applyMetadata (hs : Settled host₀ project id) :
    Keeps host₀ request (applyMetadata request (host₀.survey request) project id) host := by
  refine keeps_checked h fun _ => keeps_write (h.removes rfl rfl ?_)
  refine fun ⟨hj, ht⟩ => ⟨hs.leases, ht, hj, fun id' hof => ?_, nofun⟩
  obtain rfl : id = id' := hof
  exact hs.idle

theorem keeps_applyOpen : Keeps host₀ request (applyOpen request project id) host := by
  unfold Keeps applyOpen
  simp only [ok_bind, ok_get, ok_lift]
  intro active _
  cases active with
  | true => exact ok_pure.mpr h
  | false =>
    simp only [Bool.false_eq_true, if_false, ok_bind, ok_lift]
    intro _ _ directory _ status _ slots _
    split
    · exact ok_pure.mpr h
    · exact keeps_write ⟨h.judged, h.leases⟩

theorem keeps_applyCandidate {candidate} (hd : candidate.Due host₀ request) :
    Keeps host₀ request (applyCandidate request (host₀.survey request) candidate) host := by
  cases candidate with
  | openTask project id => exact keeps_applyOpen h
  | taskMetadata project id => exact keeps_applyMetadata h hd
  | branch project id => exact keeps_applyBranch h hd
  | session project id => exact keeps_applySessionRef h hd
  | job project worktree id => exact keeps_applyJob h
  | mirror project => exact keeps_applyMirror h

end

/-- Forty days after the epoch, with the retentions of the code. -/
def appliedPass : GcRequest :=
  ⟨true, 40 * 24 * 60 * 60 * 1000, 7 * 24 * 60 * 60 * 1000, 30 * 24 * 60 * 60 * 1000,
    7 * 24 * 60 * 60 * 1000⟩

/-- A host with one mirror, in which a commit of the epoch has one ref. -/
def oneRef (tasks : Directory (String × TaskId) (Option TaskDirectory)) (ref : MirrorRef) :
    GcHost :=
  { leases := some [], tasks := tasks, jobs := ∅, strayTasks := [], strayJobs := []
    mirrors := AList.singleton "p" ⟨some [ref], none, some 0⟩, removed := [] }

def oldBranch : MirrorRef := ⟨.branch ⟨7⟩, some 0, .loose 0, 0⟩

def closedTask : TaskDirectory :=
  { info := some ⟨⟨7⟩, none, "p", "w"⟩, status := some ⟨⟨.closed, none, none, []⟩, 0⟩
    integration := some (none, false), intents := some ∅, sized := true }

/-- The base of a task that is still to be prepared, pushed a millisecond ago. -/
def pushedBase : MirrorRef := ⟨.base ⟨7⟩, some 0, .loose (appliedPass.nowMillis - 1),
  appliedPass.nowMillis - 1⟩

end MacWorker.Gc
