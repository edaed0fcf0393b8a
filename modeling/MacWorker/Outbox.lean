import MacWorker.Gc.Pass

/-! # Retrying a delivery while it is pushed

A pass of the pump reads an intent under its lock, pushes without the lock, and records the
outcome under the lock again. What it records is the intent it read first; only the number of
attempts is taken from the intent as it is then. An operator's retry may fall between the two. -/
namespace MacWorker.Outbox
open Fallible
open Gc (DeliveryState)

structure DeliveryIntent where
  projectId : String
  taskId : TaskId
  turnId : TurnId
  (origin branch : String)
  oid : BaseOid
  state : DeliveryState
  (attempt nextAttemptAtMillis : Nat)
  lastError : Option String
  supersededBy : Option BaseOid
  (createdAtMillis updatedAtMillis : Nat)
  retryRequestedAtMillis : Option Nat
  deriving DecidableEq

structure DueEntry where
  projectId : String
  taskId : TaskId
  turnId : TurnId
  nextAttemptAtMillis : Nat
  deriving DecidableEq

structure TargetLedger where
  (origin branch : String)
  generation : Nat
  lastOid : Option BaseOid
  lastTaskId : Option TaskId
  lastTurnId : Option TurnId
  updatedAtMillis : Nat
  deriving DecidableEq

structure Store where
  intent : Option DeliveryIntent
  due : Option DueEntry
  ledger : Option TargetLedger
  deriving DecidableEq

/-- What a push depends on beside the files. -/
structure Git where
  mirrorPresent : Except WorkerError Bool
  isAncestor : BaseOid → BaseOid → Except WorkerError Bool
  branchValid : String → Bool
  (pinDeliveryRef pushOrigin : Except WorkerError Unit)
  advertiseOriginRef : Except WorkerError (Option BaseOid)
  publicCode : WorkerError → String

def maxAttempts : Nat := 12

def backoffMillis (attempt : Nat) : Nat := min (1000 * 2 ^ min (attempt - 1) 16) 300000

namespace DeliveryIntent
variable (intent : DeliveryIntent)

def intoState (state : DeliveryState) (nowMillis : Nat) (lastError : Option String)
    (supersededBy : Option BaseOid) : DeliveryIntent :=
  { intent with state, updatedAtMillis := nowMillis, lastError, supersededBy }

def isBlocked : Bool := intent.state == .delivered || intent.supersededBy.isSome

def isRedriveable : Bool :=
  !intent.isBlocked && (intent.state == .failed || intent.state == .retrying)

def dueEntry : DueEntry :=
  ⟨intent.projectId, intent.taskId, intent.turnId, intent.nextAttemptAtMillis⟩

def syncDue : Option DueEntry := if intent.state.retainsObjects then some intent.dueEntry else none

end DeliveryIntent

def writeIntent (store : Store) (intent : DeliveryIntent) : Store :=
  { store with intent := some intent, due := intent.syncDue }

/-! ## One pass of the pump -/

section
variable (git : Git) (nowMillis : Nat) (snapshot : DeliveryIntent)

def requireMirror : Except WorkerError Unit := do
  let present ← git.mirrorPresent
  ensure (present = true) (.task "PUBLISH_FAILED" "project mirror is absent")

def ensurePin (store : Store) : Except WorkerError Unit :=
  match store.intent with
  | none => .error (.task "PUBLISH_FAILED" "delivery intent was removed before pin")
  | some current => do
    if !current.state.retainsObjects then return
    requireMirror git
    git.pinDeliveryRef

def removed : WorkerError := .task "PUBLISH_FAILED" "delivery intent was removed during push"

def currentIntent (store : Store) : Except WorkerError DeliveryIntent :=
  match store.intent with
  | none => .error removed
  | some current => do
    ensure (current.oid = snapshot.oid ∧ current.createdAtMillis = snapshot.createdAtMillis ∧
        current.turnId = snapshot.turnId)
      (.task "DELIVERY_REF_CONFLICT" "delivery intent changed during push")
    return current

/-- The intent to push; none if it is not due any more. -/
def pumpRead (store : Store) : Except WorkerError (Option DeliveryIntent) := do
  let current ← currentIntent snapshot store
  return if !current.state.retainsObjects || current.nextAttemptAtMillis > nowMillis then none
    else some current

def classifyBeforePush (ledger : Option TargetLedger) :
    Except WorkerError (Option DeliveryIntent) :=
  match ledger.bind (·.lastOid) with
  | none => .ok none
  | some last =>
    if last = snapshot.oid then
      .ok (some (snapshot.intoState .delivered snapshot.updatedAtMillis none none))
    else do
      if !(← git.mirrorPresent) then return none
      match git.isAncestor snapshot.oid last with
      | .error _ => return none
      | .ok true =>
        return some (snapshot.intoState .delivered snapshot.updatedAtMillis none (some last))
      | .ok false =>
        match git.isAncestor last snapshot.oid with
        | .ok false =>
          return some (snapshot.intoState .retrying snapshot.updatedAtMillis
            (some "PUBLISH_FAILED") none)
        | _ => return none

def invalidTarget : WorkerError := .task "PUBLISH_FAILED" "delivery target is invalid"

def pushSnapshot : Except WorkerError Unit := do
  ensure (git.branchValid snapshot.branch) invalidTarget
  requireMirror git
  git.pushOrigin

def deliveryRetryCode (error : WorkerError) : String :=
  if git.publicCode error = "ORIGIN_AUTH_FAILED" then "ORIGIN_AUTH_FAILED" else "PUBLISH_FAILED"

def classifyAfterFailure (ledger : Option TargetLedger) (error : WorkerError) :
    Except WorkerError DeliveryIntent := do
  ensure (git.branchValid snapshot.branch) invalidTarget
  let retrying := snapshot.intoState .retrying nowMillis (some (deliveryRetryCode git error)) none
  match git.advertiseOriginRef with
  | .ok (some oid) =>
    if oid = snapshot.oid then return snapshot.intoState .delivered nowMillis none none
    if ledger.bind (·.lastOid) = some oid then
      if ← git.mirrorPresent then
        if git.isAncestor snapshot.oid oid = .ok true then
          return snapshot.intoState .delivered nowMillis none (some oid)
    return retrying
  | _ => return retrying

/-- The outcome of a push attempt, worked out without the lock. -/
def pushAttempt (ledger : Option TargetLedger) : Except WorkerError DeliveryIntent := do
  match ← classifyBeforePush git snapshot ledger with
  | some done => return done
  | none =>
    match pushSnapshot git snapshot with
    | .ok () => return snapshot.intoState .delivered nowMillis none none
    | .error error => classifyAfterFailure git nowMillis snapshot ledger error

/-- What is recorded of an outcome, given the intent as it is now stored. -/
def recorded (current next : DeliveryIntent) : DeliveryIntent :=
  if next.state = .retrying ∨ next.state = .failed then
    let attempt := min (current.attempt + 1) (2 ^ 32 - 1)
    { next with
      attempt
      state := if attempt > maxAttempts then .failed else next.state
      lastError := if attempt > maxAttempts then next.lastError <|> some "PUBLISH_FAILED"
        else next.lastError
      nextAttemptAtMillis := min (nowMillis + backoffMillis attempt) (2 ^ 64 - 1)
      updatedAtMillis := nowMillis }
  else { next with attempt := current.attempt, updatedAtMillis := nowMillis }

def pumpWrite (ledger : Option TargetLedger) (next : DeliveryIntent) (store : Store) :
    Except WorkerError Store := do
  let current ← currentIntent snapshot store
  if !current.state.retainsObjects then return store
  let next := recorded nowMillis current next
  let store := writeIntent store next
  if next.state = .delivered ∧ next.supersededBy = none then
    let entry : TargetLedger :=
      { origin := next.origin, branch := next.branch
        generation := (ledger.map (·.generation)).getD 0 + 1
        lastOid := some next.oid
        lastTaskId := some next.taskId
        lastTurnId := some next.turnId
        updatedAtMillis := nowMillis }
    return { store with ledger := some entry }
  return store

def markOperationFailure (error : WorkerError) (store : Store) : Store :=
  match store.intent with
  | none => store
  | some current =>
    if !current.state.retainsObjects then store
    else
      let attempt := min (current.attempt + 1) (2 ^ 32 - 1)
      writeIntent store { current with
        attempt
        state := if attempt > maxAttempts then .failed else .retrying
        lastError := some (deliveryRetryCode git error)
        nextAttemptAtMillis := min (nowMillis + backoffMillis attempt) (2 ^ 64 - 1)
        updatedAtMillis := nowMillis }

end

def resetIntent (nowMillis : Nat) (store : Store) : Except WorkerError Store :=
  match store.intent with
  | none => .error (.task "DELIVERY_NOT_FOUND" "delivery intent was removed during retry")
  | some current => do
    ensure (current.isBlocked = false) (.task "DELIVERY_ALREADY_DELIVERED"
      "origin delivery is already delivered or superseded")
    if current.isRedriveable then
      return writeIntent store { current with
        state := .retrying, attempt := 0, nextAttemptAtMillis := nowMillis
        retryRequestedAtMillis := some nowMillis, updatedAtMillis := nowMillis }
    return store

/-- How far a pass has come: each step but the push is one turn with the intent's lock. -/
inductive Pass where
  | listed (snapshot : DeliveryIntent)
  | pinned (snapshot : DeliveryIntent)
  | pushing (snapshot : DeliveryIntent) (ledger : Option TargetLedger)
  | failing (error : WorkerError)
  | done

structure Scene where
  store : Store
  pass : Pass

def advance (git : Git) (nowMillis : Nat) (scene : Scene) : Scene :=
  let ⟨store, pass⟩ := scene
  match pass with
  | .listed snapshot =>
    match ensurePin git store with
    | .error error => ⟨store, .failing error⟩
    | .ok () => ⟨store, .pinned snapshot⟩
  | .pinned snapshot =>
    match pumpRead nowMillis snapshot store with
    | .error error => ⟨store, .failing error⟩
    | .ok none => ⟨store, .done⟩
    | .ok (some current) => ⟨store, .pushing current store.ledger⟩
  | .pushing snapshot ledger =>
    match pushAttempt git nowMillis snapshot ledger >>= fun next =>
        pumpWrite nowMillis snapshot ledger next store with
    | .error error => ⟨store, .failing error⟩
    | .ok store => ⟨store, .done⟩
  | .failing error => ⟨markOperationFailure git nowMillis error store, .done⟩
  | .done => scene

/-! ## What becomes of a retry -/

/-- The retry's mark and its fresh budget are stored. -/
def Kept (requested : Nat) (store : Store) : Prop :=
  ∃ intent, store.intent = some intent ∧ intent.retryRequestedAtMillis = some requested ∧
    intent.attempt = 0

/-- The intent is delivered, or the pump will come back to it. -/
def DueAgain (store : Store) : Prop :=
  ∃ intent, store.intent = some intent ∧ (intent.state = .delivered ∨
    intent.state = .retrying ∧ store.due = some intent.dueEntry)

section
variable {git : Git} {nowMillis requested : Nat} {snapshot current next : DeliveryIntent}
  {ledger : Option TargetLedger} {store store' : Store}

/-- An outcome is the intent that was read, delivered or to be tried again. -/
def OutcomeOf (snapshot next : DeliveryIntent) : Prop :=
  next.retryRequestedAtMillis = snapshot.retryRequestedAtMillis ∧
    (next.state = .delivered ∨ next.state = .retrying)

theorem outcome_delivered {error oid t} :
    OutcomeOf snapshot (snapshot.intoState .delivered t error oid) := ⟨rfl, .inl rfl⟩

theorem outcome_retrying {error oid t} :
    OutcomeOf snapshot (snapshot.intoState .retrying t error oid) := ⟨rfl, .inr rfl⟩

theorem classifyBeforePush_ok (h : classifyBeforePush git snapshot ledger = .ok (some next)) :
    OutcomeOf snapshot next := by
  unfold classifyBeforePush at h
  split at h
  · cases h
  split at h
  · cases h
    exact outcome_delivered
  obtain ⟨present, -, h⟩ := of_bind h
  split at h
  · cases h
  split at h
  · cases h
  · cases h
    exact outcome_delivered
  · split at h
    · cases h
      exact outcome_retrying
    · cases h

theorem classifyAfterFailure_ok {error}
    (h : classifyAfterFailure git nowMillis snapshot ledger error = .ok next) :
    OutcomeOf snapshot next := by
  unfold classifyAfterFailure at h
  obtain ⟨-, h⟩ := of_then h
  split at h
  · split at h
    · cases h
      exact outcome_delivered
    split at h
    · obtain ⟨present, -, h⟩ := of_bind h
      split at h
      · split at h
        · cases h
          exact outcome_delivered
        · cases h
          exact outcome_retrying
      · cases h
        exact outcome_retrying
    · cases h
      exact outcome_retrying
  · cases h
    exact outcome_retrying

theorem pushAttempt_ok (h : pushAttempt git nowMillis snapshot ledger = .ok next) :
    OutcomeOf snapshot next := by
  obtain ⟨done, hd, h⟩ := of_bind h
  split at h
  · cases h
    exact classifyBeforePush_ok hd
  · split at h
    · cases h
      exact outcome_delivered
    · exact classifyAfterFailure_ok h

structure Fresh (requested : Nat) (store : Store) (intent : DeliveryIntent) : Prop where
  stored : store.intent = some intent
  state : intent.state = .retrying
  attempt : intent.attempt = 0
  mark : intent.retryRequestedAtMillis = some requested
  due : store.due = some intent.dueEntry

theorem resetIntent_ok (h : resetIntent requested store = .ok store') :
    (∃ intent, store.intent = some intent ∧ intent.state = .pending ∧ store' = store) ∨
      ∃ intent, Fresh requested store' intent := by
  unfold resetIntent at h
  split at h
  · cases h
  rename_i current hc
  obtain ⟨hb, h⟩ := of_then h
  split at h
  · cases h
    exact .inr ⟨_, rfl, rfl, rfl, rfl, rfl⟩
  · rename_i hr
    cases h
    refine .inl ⟨current, hc, ?_, rfl⟩
    have hb : current.isBlocked = false := ensure_eq_ok.mp hb
    have hd : current.state ≠ .delivered := by
      intro hd
      simp [DeliveryIntent.isBlocked, hd] at hb
    simp only [DeliveryIntent.isRedriveable, hb] at hr
    cases hs : current.state <;> simp_all

/-- What an attempt records that was at work when the retry came. -/
def Late (pass : Pass) (store : Store) : Prop :=
  ∃ intent, store.intent = some intent ∧
    (intent.state = .retrying ∧ intent.attempt = 1 ∧ store.due = some intent.dueEntry ∨
      intent.state = .delivered ∧ intent.attempt = 0 ∧ ∃ snapshot ledger,
        pass = .pushing snapshot ledger ∧
        intent.retryRequestedAtMillis = snapshot.retryRequestedAtMillis)

theorem late_of_pumpWrite (hf : Fresh requested store current)
    (ha : pushAttempt git nowMillis snapshot ledger = .ok next)
    (h : pumpWrite nowMillis snapshot ledger next store = .ok store') :
    Late (.pushing snapshot ledger) store' := by
  obtain ⟨hm, hs⟩ := pushAttempt_ok ha
  obtain ⟨current', hc, h⟩ := of_bind h
  obtain rfl : current' = current := by
    unfold currentIntent at hc
    rw [hf.stored] at hc
    exact (pure_eq_ok.mp (of_then hc).2).symm
  rw [hf.state] at h
  -- One failed attempt is far from the limit.
  rcases hs with hs | hs
  · have hn : recorded nowMillis current' next =
        { next with attempt := 0, updatedAtMillis := nowMillis } := by
      simp [recorded, hs, hf.attempt]
    suffices hi : store'.intent = some (recorded nowMillis current' next) by
      rw [hn] at hi
      exact ⟨_, hi, .inr ⟨hs, rfl, snapshot, ledger, rfl, hm⟩⟩
    simp only [DeliveryState.retainsObjects, Bool.not_true, Bool.false_eq_true, if_false] at h
    split at h <;> cases h <;> rfl
  · have hr : (recorded nowMillis current' next).state = .retrying ∧
        (recorded nowMillis current' next).attempt = 1 := by
      simp [recorded, hs, hf.attempt, maxAttempts]
    simp [DeliveryState.retainsObjects, hr.1] at h
    cases h
    exact ⟨_, rfl, .inl ⟨hr.1, hr.2, by simp [writeIntent, DeliveryIntent.syncDue, hr.1,
      DeliveryState.retainsObjects]⟩⟩

theorem late_of_mark {error pass} (hf : Fresh requested store current) :
    Late pass (markOperationFailure git nowMillis error store) := by
  unfold markOperationFailure
  rw [hf.stored]
  simp only [hf.state, hf.attempt]
  exact ⟨_, rfl, .inl ⟨rfl, rfl, rfl⟩⟩

def Pass.started : Pass → Bool
  | .listed _ | .pinned _ => false
  | _ => true

/-- From a retry on: it is untouched until the attempt at work records something. -/
def Since (before : Pass) (store : Store) (scene : Scene) : Prop :=
  scene.store = store ∧
    (scene.pass = before ∨ before ≠ .done ∧ ∃ error, scene.pass = .failing error) ∨
    before ≠ .done ∧ scene.pass = .done ∧ Late before scene.store

theorem since_advance {before scene} (hf : Fresh requested store current)
    (hp : before.started = true) (h : Since before store scene) :
    Since before store (advance git nowMillis scene) := by
  obtain ⟨st, pass⟩ := scene
  rcases h with ⟨rfl, h⟩ | ⟨hb, rfl, hl⟩
  · rcases h with rfl | ⟨hb, error, rfl⟩
    · cases pass with
      | listed => cases hp
      | pinned => cases hp
      | pushing snapshot ledger =>
        unfold advance
        simp only
        split
        · exact .inl ⟨rfl, .inr ⟨nofun, _, rfl⟩⟩
        · rename_i h
          obtain ⟨next, ha, hw⟩ := of_bind h
          exact .inr ⟨nofun, rfl, late_of_pumpWrite hf ha hw⟩
      | failing error => exact .inr ⟨nofun, rfl, late_of_mark hf⟩
      | done => exact .inl ⟨rfl, .inl rfl⟩
    · exact .inr ⟨hb, rfl, late_of_mark hf⟩
  · exact .inr ⟨hb, rfl, hl⟩

end

def retried : DeliveryIntent :=
  { projectId := "a", taskId := ⟨1⟩, turnId := ⟨1⟩, origin := "file:///a", branch := "main"
    oid := .sample, state := .retrying, attempt := 3, nextAttemptAtMillis := 10
    lastError := some "PUBLISH_FAILED", supersededBy := none
    createdAtMillis := 1, updatedAtMillis := 6, retryRequestedAtMillis := none }

def pushingRetried : Scene :=
  ⟨⟨some retried, some retried.dueEntry, none⟩, .pushing retried none⟩

def openOrigin : Git :=
  { mirrorPresent := .ok true, isAncestor := fun _ _ => .ok false, branchValid := fun _ => true
    pinDeliveryRef := .ok (), pushOrigin := .ok (), advertiseOriginRef := .ok none
    publicCode := fun _ => "PUBLISH_FAILED" }

def retriedAgain : Store :=
  writeIntent pushingRetried.store { retried with
    attempt := 0, nextAttemptAtMillis := 30, retryRequestedAtMillis := some 30
    updatedAtMillis := 30 }

end MacWorker.Outbox
