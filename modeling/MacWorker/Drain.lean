import MacWorker.Integration.Owner
import Mathlib.Order.Interval.Finset.Nat

/-! # The history of pauses

An operator drains and resumes the controller, or disables it. Integration remembers when
it was paused: windows, of which the last may be open. A window never begins before the
end of the one before it, whatever the clock says. Windows are forgotten once enough
unpaused time has passed since their end, and the oldest ones when there are too many.

Only an update whose clock is past everything that is stored can forget a window, so the
time that has passed is time by that clock. A window is looked up by its beginning, which
two windows of one millisecond share. -/
namespace MacWorker.Drain
open List
open Integration (IntegrationPauseReason IntegrationPauseEvidence maxPrivateRecordBytes
  saturatingAdd)

def pauseHistoryActiveMillis : Nat := 60 * 60 * 1000

def maxPauseWindows : Nat := 256

structure PauseWindow where
  reason : IntegrationPauseReason
  effectiveAtMillis : Nat
  resumedAtMillis : Option Nat
  deriving DecidableEq

structure IntegrationGate where
  version : Nat
  windows : List PauseWindow
  deriving DecidableEq

def invalidState : WorkerError :=
  .protocol "CONTROLLER_TRANSPORT: controller drain state is invalid"

def IntegrationGate.refuses (gate : IntegrationGate) (i : Nat) (w : PauseWindow) : Bool :=
  !(w.reason == .controllerDrained || w.reason == .controllerDisabled) ||
    w.resumedAtMillis.any (· < w.effectiveAtMillis) ||
    (i + 1 < gate.windows.length && w.resumedAtMillis.isNone) ||
    (0 < i && (gate.windows[i - 1]?.bind PauseWindow.resumedAtMillis).all (w.effectiveAtMillis < ·))

/-- The bytes of a file: of a gate, or of none. -/
abbrev Content := Option IntegrationGate

def decodeIntegrationGate : Content → Except WorkerError IntegrationGate
  | none => .error invalidState
  | some gate =>
    if gate.version != 1 || gate.windows.zipIdx.any (fun p => gate.refuses p.2 p.1) then
      .error invalidState
    else .ok gate

/-! ## The text of a gate -/

def reasonText : IntegrationPauseReason → String
  | .controllerDrained => "\"controller_drained\""
  | .controllerDisabled => "\"controller_disabled\""
  | .helperUnavailable => "\"helper_unavailable\""

def PauseWindow.text (w : PauseWindow) : List Char :=
  "\x7b\"reason\":".toList ++ (reasonText w.reason).toList ++ ",\"effective_at_millis\":".toList ++
    Nat.toDigits 10 w.effectiveAtMillis ++ ",\"resumed_at_millis\":".toList ++
    w.resumedAtMillis.elim "null".toList (Nat.toDigits 10) ++ "\x7d".toList

def IntegrationGate.text (gate : IntegrationGate) : List Char :=
  "\x7b\"version\":".toList ++ Nat.toDigits 10 gate.version ++ ",\"windows\":[".toList ++
    [','].intercalate (gate.windows.map PauseWindow.text) ++ "]\x7d".toList

/-! ## Updates -/

def isOpen (windows : List PauseWindow) : Bool :=
  windows.getLast?.any fun w => w.resumedAtMillis.isNone

def lastInstant (windows : List PauseWindow) : Nat :=
  windows.getLast?.elim 0 fun w => w.resumedAtMillis.getD w.effectiveAtMillis

def pause (windows : List PauseWindow) (reason : IntegrationPauseReason) (now : Nat) :
    List PauseWindow :=
  if !isOpen windows then
    windows ++ [⟨reason, max now ((windows.getLast?.bind PauseWindow.resumedAtMillis).getD 0),
      none⟩]
  else if reason = .controllerDisabled then
    windows.dropLast ++ (windows.getLast?.map ({ · with reason := reason })).toList
  else windows

def resume (windows : List PauseWindow) (now : Nat) : List PauseWindow :=
  if isOpen windows then
    windows.dropLast ++ (windows.getLast?.map fun w =>
      { w with resumedAtMillis := some (max now w.effectiveAtMillis) }).toList
  else windows

/-- The windows that are retained, newest first. -/
def retained : List PauseWindow → Nat → Nat → List PauseWindow
  | [], _, _ => []
  | w :: earlier, cursor, active =>
    match w.resumedAtMillis with
    | some finish =>
      let active := saturatingAdd active (cursor - finish)
      if pauseHistoryActiveMillis < active then []
      else w :: retained earlier w.effectiveAtMillis active
    | none => w :: retained earlier w.effectiveAtMillis active

def pruneByAge (windows : List PauseWindow) (now : Nat) : List PauseWindow :=
  (retained windows.reverse (max now (lastInstant windows)) 0).reverse

def prunePauseHistory (windows : List PauseWindow) (now : Nat) : List PauseWindow :=
  let recent := pruneByAge windows now
  recent.drop (recent.length - maxPauseWindows)

/-- What the operator does, with the clock it is done by. -/
structure Update where
  /-- Drain or resume, or else disable. -/
  drained : Option Bool
  now : UInt64

def Update.reason (u : Update) : IntegrationPauseReason :=
  if u.drained.isSome then .controllerDrained else .controllerDisabled

def Update.change (u : Update) (windows : List PauseWindow) : List PauseWindow :=
  if u.drained.getD true then pause windows u.reason u.now.toNat else resume windows u.now.toNat

def Update.apply (u : Update) (windows : List PauseWindow) : List PauseWindow :=
  prunePauseHistory (u.change windows) u.now.toNat

structure Files where
  drained : Bool
  (gate corrupt : Option Content)

/-- What was stored before, an unreadable gate put aside with a warning. -/
def Files.previous (files : Files) : List PauseWindow × Files × Option WorkerError :=
  match files.gate with
  | none => ([], files, none)
  | some content =>
    match decodeIntegrationGate content with
    | .ok gate => (gate.windows, files, none)
    | .error e => ([], { files with corrupt := some content }, some e)

def updateIntegrationGate (files : Files) (u : Update) :
    Except WorkerError (Files × Option WorkerError) :=
  let (windows, files, warning) := files.previous
  if files.gate.isNone && !u.drained.getD true then .ok (files, none)
  else
    let gate : IntegrationGate := ⟨1, u.apply windows⟩
    if maxPrivateRecordBytes < gate.text.length then .error invalidState
    else .ok ({ files with gate := some gate }, warning)

/-- The flag of the operator is stored first, and a gate that cannot be stored is left as
it is. -/
def setGateAt (files : Files) (u : Update) : Files × Option WorkerError :=
  let files := { files with drained := u.drained.getD files.drained }
  match updateIntegrationGate files u with
  | .ok answer => answer
  | .error e => (files, some e)

/-! ## Questions -/

def readIntegrationGate (files : Files) : Except WorkerError (Option IntegrationGate) :=
  match files.gate with
  | none => .ok none
  | some content => (decodeIntegrationGate content).map some

def integrationAdmission (files : Files) (now : Nat) :
    Except WorkerError (Except IntegrationPauseEvidence Unit) := do
  let gate ← readIntegrationGate files
  let windows := gate.elim [] IntegrationGate.windows
  if files.drained || isOpen windows then
    return .error (windows.getLast?.elim ⟨.controllerDrained, now⟩ fun w =>
      ⟨w.reason, w.effectiveAtMillis⟩)
  else return .ok ()

def elapsed (windows : List PauseWindow) (since through : Nat) : Nat :=
  (windows.filterMap fun w => w.resumedAtMillis.map fun finish =>
    min finish through - max w.effectiveAtMillis since).foldl saturatingAdd 0

def elapsedPauseTime (files : Files) (since through : Nat) : Except WorkerError Nat := do
  let gate ← readIntegrationGate files
  return gate.elim 0 fun gate => elapsed gate.windows since through

def resumedAt (files : Files) (effectiveAt : Nat) : Except WorkerError (Option Nat) := do
  let gate ← readIntegrationGate files
  return ((gate.elim [] IntegrationGate.windows).find? (·.effectiveAtMillis = effectiveAt)).elim
    (some effectiveAt) PauseWindow.resumedAtMillis

/-! ## Windows in order -/

structure PauseWindow.Sound (w : PauseWindow) : Prop where
  reason : w.reason = .controllerDrained ∨ w.reason = .controllerDisabled
  start : w.effectiveAtMillis < 2 ^ 64
  finish : ∀ e, w.resumedAtMillis = some e → w.effectiveAtMillis ≤ e ∧ e < 2 ^ 64

def PauseWindow.Before (w later : PauseWindow) : Prop :=
  ∃ e, w.resumedAtMillis = some e ∧ e ≤ later.effectiveAtMillis

structure Ordered (ws : List PauseWindow) : Prop where
  sound : ∀ w ∈ ws, w.Sound
  order : ws.Pairwise PauseWindow.Before

variable {ws : List PauseWindow}

theorem Ordered.sublist {ws'} (h : Ordered ws) (hs : ws' <+ ws) : Ordered ws' :=
  ⟨fun w hw => h.sound w (hs.subset hw), h.order.sublist hs⟩

theorem Ordered.concat {init w w'} (h : Ordered (init ++ [w])) (hs : w'.Sound)
    (he : w'.effectiveAtMillis = w.effectiveAtMillis) : Ordered (init ++ [w']) := by
  obtain ⟨hi, -, hb⟩ := pairwise_append.mp h.order
  refine ⟨fun v hv => ?_, pairwise_append.mpr ⟨hi, pairwise_singleton _ _, fun a ha b hb' => ?_⟩⟩
  · rcases mem_append.mp hv with hv | hv
    · exact h.sound v (mem_append_left _ hv)
    · exact mem_singleton.mp hv ▸ hs
  · obtain ⟨e, hr, hle⟩ := hb a ha w (mem_singleton_self w)
    exact ⟨e, hr, by rw [mem_singleton.mp hb', he]; exact hle⟩

theorem Ordered.decoded (h : Ordered ws) : decodeIntegrationGate (some ⟨1, ws⟩) = .ok ⟨1, ws⟩ := by
  have hb := pairwise_iff_getElem.mp h.order
  have hn : ∀ p ∈ ws.zipIdx, (⟨1, ws⟩ : IntegrationGate).refuses p.2 p.1 = false := by
    intro p hp
    obtain ⟨hi, hw⟩ := mem_zipIdx' hp
    have hs := h.sound p.1 (hw ▸ getElem_mem hi)
    have hr : (p.1.reason == .controllerDrained || p.1.reason == .controllerDisabled) = true := by
      rcases hs.reason with hr | hr <;> rw [hr] <;> rfl
    have hf : p.1.resumedAtMillis.any (· < p.1.effectiveAtMillis) = false := by
      cases hc : p.1.resumedAtMillis with
      | none => rfl
      | some e => simpa using (hs.finish e hc).1
    have hl : (p.2 + 1 < ws.length && p.1.resumedAtMillis.isNone) = false := by
      by_cases hl : p.2 + 1 < ws.length
      · obtain ⟨e, he, -⟩ := hb p.2 (p.2 + 1) hi hl (by omega)
        rw [hw, he, Option.isNone_some, Bool.and_false]
      · simp [hl]
    have hp : (0 < p.2 && (ws[p.2 - 1]?.bind PauseWindow.resumedAtMillis).all
        (p.1.effectiveAtMillis < ·)) = false := by
      by_cases hz : 0 < p.2
      · obtain ⟨e, he, hle⟩ := hb (p.2 - 1) p.2 (by omega) hi (by omega)
        rw [getElem?_eq_getElem (by omega), Option.bind_some, he, hw]
        simpa using fun _ => hle
      · simp [hz]
    rw [IntegrationGate.refuses, hr, hf, hl, hp]
    rfl
  rw [decodeIntegrationGate, if_neg]
  simpa using hn

/-! ## Unpaused time -/

def paused (ws : List PauseWindow) (t : Nat) : Bool :=
  ws.any fun w => w.effectiveAtMillis ≤ t && w.resumedAtMillis.all (t < ·)

/-- The unpaused milliseconds between two moments. -/
def unpaused (ws : List PauseWindow) (since now : Nat) : Nat :=
  ((Finset.Ico since now).filter fun t => paused ws t = false).card

theorem unpaused_add {a b c : Nat} (hab : a ≤ b) (hbc : b ≤ c) :
    unpaused ws a c = unpaused ws a b + unpaused ws b c := by
  unfold unpaused
  rw [← Finset.Ico_union_Ico_eq_Ico hab hbc, Finset.filter_union, Finset.card_union_of_disjoint]
  exact Finset.disjoint_filter_filter (Finset.Ico_disjoint_Ico_consecutive a b c)

theorem unpaused_mono {a b c : Nat} (h : a ≤ b) : unpaused ws b c ≤ unpaused ws a c :=
  Finset.card_le_card (Finset.filter_subset_filter _ (Finset.Ico_subset_Ico_left h))

theorem unpaused_congr {ws' a b} (h : ∀ t < b, paused ws t = paused ws' t) :
    unpaused ws a b = unpaused ws' a b := by
  unfold unpaused
  congr 1
  exact Finset.filter_congr fun t ht => by rw [h t (Finset.mem_Ico.mp ht).2]

theorem paused_eq_false {t} : paused ws t = false ↔ ∀ w ∈ ws, w.effectiveAtMillis ≤ t →
    ∃ e, w.resumedAtMillis = some e ∧ e ≤ t := by
  unfold paused
  simp only [any_eq_false, Bool.and_eq_true, decide_eq_true_eq, not_and]
  refine forall₃_congr fun w _ _ => ?_
  cases w.resumedAtMillis <;> simp

/-! ## What is forgotten -/

theorem retained_of_retained {rev l c c' a a'} (h : l <+: retained rev c a) (hc : c' ≤ c)
    (ha : a' ≤ a) : retained l c' a' = l := by
  induction rev generalizing l c c' a a' with
  | nil => rw [prefix_nil.mp h, retained]
  | cons w earlier ih =>
    rw [retained] at h
    cases l with
    | nil => rw [retained]
    | cons v l =>
      cases hr : w.resumedAtMillis with
      | none =>
        simp only [hr] at h
        obtain ⟨rfl, hl⟩ := cons_prefix_cons.mp h
        rw [retained, hr]
        exact congrArg _ (ih hl le_rfl ha)
      | some e =>
        simp only [hr] at h
        split at h
        · cases prefix_nil.mp h
        · next hle =>
          obtain ⟨rfl, hl⟩ := cons_prefix_cons.mp h
          have hs : saturatingAdd a' (c' - e) ≤ saturatingAdd a (c - e) := by
            unfold saturatingAdd
            omega
          rw [retained, hr]
          dsimp only
          rw [if_neg (by omega), ih hl le_rfl hs]

/-- What is forgotten is closed, and more than the horizon of unpaused time has passed
since. -/
theorem retained_dropped {rev c} (a : Nat) (hs : ∀ w ∈ rev, w.Sound)
    (ho : rev.Pairwise fun later w => PauseWindow.Before w later)
    (hc : ∀ w ∈ rev, w.effectiveAtMillis ≤ c ∧ ∀ e, w.resumedAtMillis = some e → e ≤ c) :
    ∃ dropped, rev = retained rev c a ++ dropped ∧ ∀ w ∈ dropped, ∃ e,
      w.resumedAtMillis = some e ∧ pauseHistoryActiveMillis < a + unpaused rev e c := by
  induction rev generalizing c a with
  | nil => exact ⟨[], rfl, nofun⟩
  | cons w earlier ih =>
    obtain ⟨hb, ho⟩ := pairwise_cons.mp ho
    obtain ⟨hw, hf⟩ := hc w mem_cons_self
    have hq : ∀ t < w.effectiveAtMillis, paused earlier t = paused (w :: earlier) t := by
      intro t ht
      simp [paused, ht]
    -- A window that is kept passes on the unpaused time since its beginning.
    have hk : ∀ a' ≤ a + unpaused (w :: earlier) w.effectiveAtMillis c,
        ∃ dropped, earlier = retained earlier w.effectiveAtMillis a' ++ dropped ∧
          ∀ v ∈ dropped, ∃ e, v.resumedAtMillis = some e ∧
            pauseHistoryActiveMillis < a + unpaused (w :: earlier) e c := by
      intro a' ha
      obtain ⟨dropped, hd, hu⟩ := @ih w.effectiveAtMillis a'
        (fun v hv => hs v (mem_cons_of_mem _ hv)) ho fun v hv => by
        obtain ⟨e, he, hle⟩ := hb v hv
        have := ((hs v (mem_cons_of_mem _ hv)).finish e he).1
        exact ⟨by omega, fun e' he' => by rw [he] at he'; cases he'; exact hle⟩
      refine ⟨dropped, hd, fun v hv => ?_⟩
      obtain ⟨e, he, hlt⟩ := hu v hv
      obtain ⟨e', he', hle⟩ := hb v (hd ▸ mem_append_right _ hv)
      rw [he] at he'
      cases he'
      refine ⟨e, he, ?_⟩
      rw [unpaused_congr hq] at hlt
      rw [unpaused_add hle hw]
      omega
    cases hr : w.resumedAtMillis with
    | none =>
      obtain ⟨dropped, hd, hu⟩ := hk a (Nat.le_add_right _ _)
      exact ⟨dropped, by rw [retained, hr]; exact congrArg _ hd, hu⟩
    | some e =>
      have hwe := ((hs w mem_cons_self).finish e hr).1
      have hfr : unpaused (w :: earlier) e c = c - e := by
        rw [unpaused, Finset.filter_true_of_mem, Nat.card_Ico]
        refine fun t ht => paused_eq_false.mpr fun v hv _ => ?_
        replace ht := (Finset.mem_Ico.mp ht).1
        rcases mem_cons.mp hv with rfl | hv
        · exact ⟨e, hr, ht⟩
        · obtain ⟨e', he', hle⟩ := hb v hv
          exact ⟨e', he', by omega⟩
      have hsa : saturatingAdd a (c - e) ≤ a + (c - e) := Nat.min_le_left _ _
      rw [retained, hr]
      dsimp only
      split
      · next hov =>
        refine ⟨w :: earlier, rfl, fun v hv => ?_⟩
        rcases mem_cons.mp hv with rfl | hv
        · exact ⟨e, hr, by omega⟩
        · obtain ⟨e', he', hle⟩ := hb v hv
          have := @unpaused_mono (w :: earlier) e' e c (by omega)
          exact ⟨e', he', by omega⟩
      · obtain ⟨dropped, hd, hu⟩ := hk (saturatingAdd a (c - e)) (by
          rw [unpaused_add hwe (hf e hr)]
          omega)
        exact ⟨dropped, congrArg _ hd, hu⟩

/-! ## Updates keep what is stored in order -/

/-- What is stored: windows in order, not too many, of which none is to be forgotten yet. -/
structure Inv (ws : List PauseWindow) : Prop extends Ordered ws where
  few : ws.length ≤ maxPauseWindows
  settled : retained ws.reverse (lastInstant ws) 0 = ws.reverse

theorem lastInstant_concat (init : List PauseWindow) (w : PauseWindow) :
    lastInstant (init ++ [w]) = w.resumedAtMillis.getD w.effectiveAtMillis := by
  rw [lastInstant, getLast?_concat, Option.elim_some]

theorem isOpen_concat (init : List PauseWindow) (w : PauseWindow) :
    isOpen (init ++ [w]) = w.resumedAtMillis.isNone := by
  rw [isOpen, getLast?_concat, Option.any_some]

theorem Ordered.open_last (h : Ordered ws) {w} (hw : w ∈ ws) (hr : w.resumedAtMillis = none) :
    ∃ init, ws = init ++ [w] := by
  rcases eq_nil_or_concat' ws with rfl | ⟨init, last, rfl⟩
  · cases hw
  rcases mem_append.mp hw with hm | hm
  · obtain ⟨e, he, -⟩ := (pairwise_append.mp h.order).2.2 w hm last (mem_singleton_self _)
    rw [hr] at he
    cases he
  · exact ⟨init, by rw [mem_singleton.mp hm]⟩

theorem change_cases (u : Update) (ws : List PauseWindow) : (isOpen ws = false ∧
      u.change ws = ws ++ [⟨u.reason, max u.now.toNat (lastInstant ws), none⟩]) ∨
    (∃ init w r e, ws = init ++ [w] ∧ w.resumedAtMillis = none ∧
      (e = none ∨ e = some (max u.now.toNat w.effectiveAtMillis)) ∧ (r = w.reason ∨ r = u.reason) ∧
      u.change ws = init ++ [⟨r, w.effectiveAtMillis, e⟩]) ∨
    u.change ws = ws := by
  unfold Update.change
  rcases eq_nil_or_concat' ws with rfl | ⟨init, w, rfl⟩
  · split
    · exact .inl ⟨rfl, rfl⟩
    · exact .inr (.inr rfl)
  cases hr : w.resumedAtMillis with
  | none =>
    have ho : isOpen (init ++ [w]) = true := by rw [isOpen_concat, hr]; rfl
    split
    · rw [pause, ho, Bool.not_true, if_neg Bool.false_ne_true]
      split
      · next hd =>
        refine .inr (.inl ⟨init, w, u.reason, none, rfl, hr, .inl rfl, .inr rfl, ?_⟩)
        rw [dropLast_concat, getLast?_concat, ← hr]
        rfl
      · exact .inr (.inr rfl)
    · refine .inr (.inl ⟨init, w, w.reason, _, rfl, hr, .inr rfl, .inl rfl, ?_⟩)
      rw [resume, if_pos ho, dropLast_concat, getLast?_concat]
      rfl
  | some e =>
    have ho : isOpen (init ++ [w]) = false := by rw [isOpen_concat, hr]; rfl
    split
    · refine .inl ⟨ho, ?_⟩
      rw [pause, ho, lastInstant_concat, getLast?_concat, Option.bind_some, hr]
      rfl
    · rw [resume, ho]
      exact .inr (.inr rfl)

theorem Update.reason_sound (u : Update) :
    u.reason = .controllerDrained ∨ u.reason = .controllerDisabled := by
  unfold Update.reason
  split
  · exact .inl rfl
  · exact .inr rfl

theorem Ordered.le_lastInstant (h : Ordered ws) {w} (hw : w ∈ ws) :
    w.effectiveAtMillis ≤ lastInstant ws ∧ ∀ e, w.resumedAtMillis = some e →
      e ≤ lastInstant ws := by
  rcases eq_nil_or_concat' ws with rfl | ⟨init, last, rfl⟩
  · cases hw
  have hl : last.effectiveAtMillis ≤ lastInstant (init ++ [last]) := by
    rw [lastInstant_concat]
    cases hr : last.resumedAtMillis with
    | none => exact le_rfl
    | some e => exact ((h.sound last (by simp)).finish e hr).1
  rcases mem_append.mp hw with hm | hm
  · obtain ⟨e, he, hle⟩ := (pairwise_append.mp h.order).2.2 w hm last (mem_singleton_self _)
    have := ((h.sound w hw).finish e he).1
    exact ⟨by omega, fun e' he' => by rw [he] at he'; cases he'; omega⟩
  · cases mem_singleton.mp hm
    exact ⟨hl, fun e he => by rw [lastInstant_concat, he]; exact le_rfl⟩

theorem Ordered.lastInstant_lt (h : Ordered ws) : lastInstant ws < 2 ^ 64 := by
  rcases eq_nil_or_concat' ws with rfl | ⟨init, w, rfl⟩
  · decide
  · have hs := h.sound w (by simp)
    rw [lastInstant_concat]
    cases hr : w.resumedAtMillis with
    | none => exact hs.start
    | some e => exact (hs.finish e hr).2

theorem Ordered.change (h : Ordered ws) (u : Update) : Ordered (u.change ws) := by
  have hn := u.now.toNat_lt
  rcases change_cases u ws with ⟨ho, hc⟩ | ⟨init, w, r, e, rfl, hr, he, hre, hc⟩ | hc
  · rw [hc]
    have hl := h.lastInstant_lt
    refine ⟨fun v hv => ?_, pairwise_append.mpr ⟨h.order, pairwise_singleton _ _, fun a ha b hb =>
      ?_⟩⟩
    · rcases mem_append.mp hv with hv | hv
      · exact h.sound v hv
      · rw [mem_singleton.mp hv]
        exact ⟨u.reason_sound, Nat.max_lt.mpr ⟨hn, hl⟩, nofun⟩
    · cases hr : a.resumedAtMillis with
      | none =>
        obtain ⟨init, rfl⟩ := h.open_last ha hr
        rw [isOpen_concat, hr] at ho
        cases ho
      | some e =>
        rw [mem_singleton.mp hb]
        exact ⟨e, hr, ((h.le_lastInstant ha).2 e hr).trans (Nat.le_max_right _ _)⟩
  · rw [hc]
    have hs := h.sound w (by simp)
    refine h.concat ⟨?_, hs.start, fun e' he' => ?_⟩ rfl
    · rcases hre with rfl | rfl
      · exact hs.reason
      · exact u.reason_sound
    · rcases he with rfl | rfl
      · cases he'
      · cases he'
        exact ⟨Nat.le_max_right _ _, Nat.max_lt.mpr ⟨hn, hs.start⟩⟩
  · rwa [hc]

/-- Nothing is forgotten, or the clock is past everything that is stored. -/
theorem Inv.idle_or_late (h : Inv ws) (u : Update) :
    pruneByAge (u.change ws) u.now.toNat = u.change ws ∨ lastInstant (u.change ws) ≤
      u.now.toNat := by
  unfold pruneByAge
  have hset := h.settled
  rcases change_cases u ws with ⟨ho, hc⟩ | ⟨init, w, r, e, rfl, hr, he, hre, hc⟩ | hc
  · rw [hc, lastInstant_concat]
    by_cases hl : lastInstant ws ≤ u.now.toNat
    · exact .inr (Nat.max_le.mpr ⟨le_rfl, hl⟩)
    · left
      rw [reverse_concat, retained]
      dsimp only
      rw [Nat.max_eq_right (Nat.le_of_not_le hl), hset, ← reverse_concat, reverse_reverse]
  · left
    rw [lastInstant_concat, hr, reverse_concat, retained, hr] at hset
    have hset := tail_eq_of_cons_eq hset
    rw [hc, lastInstant_concat, reverse_concat, retained]
    rcases he with rfl | rfl
    · dsimp only
      rw [hset, ← reverse_concat, reverse_reverse]
    · have hz : saturatingAdd 0 0 = 0 := rfl
      dsimp only
      rw [Option.getD_some, ← Nat.max_assoc, Nat.max_self, Nat.sub_self, hz,
        if_neg (by decide), hset,
        ← reverse_concat, reverse_reverse]
  · rw [hc]
    by_cases hl : lastInstant ws ≤ u.now.toNat
    · exact .inr hl
    · left
      rw [Nat.max_eq_right (Nat.le_of_not_le hl), hset, reverse_reverse]

theorem prunePauseHistory_eq (ws : List PauseWindow) (now : Nat) : prunePauseHistory ws now =
    ((retained ws.reverse (max now (lastInstant ws)) 0).take maxPauseWindows).reverse := by
  unfold prunePauseHistory pruneByAge
  dsimp only
  rw [length_reverse, drop_reverse, take_eq_take_iff.mpr]
  omega

theorem retained_isFirst (rev : List PauseWindow) (c a : Nat) : retained rev c a <+: rev := by
  induction rev generalizing c a with
  | nil => exact nil_prefix
  | cons w earlier ih =>
    rw [retained]
    split
    · dsimp only
      split
      · exact nil_prefix
      · exact cons_prefix_cons.mpr ⟨rfl, ih _ _⟩
    · exact cons_prefix_cons.mpr ⟨rfl, ih _ _⟩

theorem apply_suffix (u : Update) (ws : List PauseWindow) : u.apply ws <:+ u.change ws := by
  rw [Update.apply, prunePauseHistory_eq, ← reverse_prefix, reverse_reverse]
  exact (List.take_prefix _ _).trans (retained_isFirst _ _ _)

theorem lastInstant_suffix {ws'} (h : ws' <:+ ws) : lastInstant ws' ≤ lastInstant ws := by
  rcases eq_nil_or_concat' ws' with rfl | ⟨init, w, rfl⟩
  · exact Nat.zero_le _
  · obtain ⟨front, rfl⟩ := h
    rw [← append_assoc, lastInstant_concat, lastInstant_concat]

/-- **One update keeps what is stored in order.** -/
theorem Inv.next (h : Inv ws) (u : Update) : Inv (u.apply ws) where
  toOrdered := (h.toOrdered.change u).sublist (apply_suffix u ws).sublist
  few := by
    rw [Update.apply, prunePauseHistory_eq, length_reverse]
    exact length_take_le _ _
  settled := by
    have hl := lastInstant_suffix (apply_suffix u ws)
    rw [Update.apply, prunePauseHistory_eq] at *
    rw [reverse_reverse]
    exact retained_of_retained (List.take_prefix _ _) (hl.trans (Nat.le_max_right _ _)) le_rfl

/-! ## Gates fit their file -/

theorem length_toDigits_le {n : Nat} (h : n < 2 ^ 64) : (Nat.toDigits 10 n).length ≤ 20 :=
  (Nat.length_toDigits_le_iff (by decide) (by decide)).mpr (h.trans (by decide))

theorem PauseWindow.Sound.text_length {w : PauseWindow} (h : w.Sound) : w.text.length ≤ 116 := by
  have hs := length_toDigits_le h.start
  have hr : (reasonText w.reason).toList.length ≤ 21 := by cases w.reason <;> decide
  have hf : (w.resumedAtMillis.elim "null".toList (Nat.toDigits 10)).length ≤ 20 := by
    cases hc : w.resumedAtMillis with
    | none => decide
    | some e => exact length_toDigits_le (h.finish e hc).2
  have hk : "\x7b\"reason\":".toList.length + ",\"effective_at_millis\":".toList.length +
    ",\"resumed_at_millis\":".toList.length + "\x7d".toList.length = 55 := by decide
  unfold PauseWindow.text
  simp only [length_append]
  omega

theorem length_intercalate_le {l : List (List Char)} {n} (h : ∀ x ∈ l, x.length ≤ n) :
    ([','].intercalate l).length ≤ (n + 1) * l.length := by
  induction l with
  | nil => exact Nat.zero_le _
  | cons x l ih =>
    have hx := h x mem_cons_self
    have hi := ih fun y hy => h y (mem_cons_of_mem _ hy)
    cases l with
    | nil => simp; omega
    | cons y l =>
      rw [intercalate_cons_cons]
      simp only [length_append, length_cons, length_nil] at hi ⊢
      rw [Nat.mul_succ]
      omega

theorem Inv.text_length (h : Inv ws) :
    (⟨1, ws⟩ : IntegrationGate).text.length ≤ maxPrivateRecordBytes := by
  have hi := length_intercalate_le (l := ws.map PauseWindow.text) (n := 116) fun x hx => by
    obtain ⟨w, hw, rfl⟩ := mem_map.mp hx
    exact (h.sound w hw).text_length
  have hf : ws.length ≤ 256 := h.few
  have hk : "\x7b\"version\":".toList.length + (Nat.toDigits 10 1).length +
    ",\"windows\":[".toList.length + "]\x7d".toList.length = 26 := by decide
  rw [length_map] at hi
  unfold IntegrationGate.text
  simp only [length_append]
  have : maxPrivateRecordBytes = 65536 := rfl
  omega

/-! ## Runs -/

structure Stored (files : Files) (ws : List PauseWindow) : Prop extends Inv ws where
  gate : files.gate = none ∧ ws = [] ∨ files.gate = some (some ⟨1, ws⟩)

theorem Stored.read {files} (h : Stored files ws) :
    ∃ gate, readIntegrationGate files = .ok gate ∧ gate.elim [] IntegrationGate.windows = ws := by
  unfold readIntegrationGate
  rcases h.gate with ⟨hg, rfl⟩ | hg <;> rw [hg]
  · exact ⟨none, rfl, rfl⟩
  · exact ⟨some ⟨1, ws⟩, congrArg (Except.map some) h.decoded, rfl⟩

/-- **An update stores its windows.** -/
theorem Stored.update {files} (h : Stored files ws) (u : Update) :
    ∃ files', updateIntegrationGate files u = .ok (files', none) ∧ Stored files' (u.apply ws) := by
  have hn := h.next u
  have hp : files.previous = (ws, files, none) := by
    unfold Files.previous
    rcases h.gate with ⟨hg, rfl⟩ | hg <;> simp only [hg]
    rw [h.decoded]
  unfold updateIntegrationGate
  rw [hp]
  dsimp only
  split
  · next hs =>
    rw [Bool.and_eq_true, Option.isNone_iff_eq_none, Bool.not_eq_true'] at hs
    refine ⟨files, rfl, hn, .inl ⟨hs.1, ?_⟩⟩
    rcases h.gate with ⟨-, rfl⟩ | hg
    · simp [Update.apply, Update.change, hs.2, resume, isOpen, prunePauseHistory, pruneByAge,
        retained]
    · rw [hs.1] at hg
      cases hg
  · rw [if_neg (Nat.not_lt.mpr hn.text_length)]
    exact ⟨_, rfl, hn, .inr rfl⟩

theorem Stored.setGateAt {files} (h : Stored files ws) (u : Update) :
    Stored (setGateAt files u).1 (u.apply ws) := by
  have hd : Stored { files with drained := u.drained.getD files.drained } ws := ⟨h.toInv, h.gate⟩
  obtain ⟨files', hu, hs⟩ := hd.update u
  unfold Drain.setGateAt
  dsimp only
  rw [hu]
  exact hs

def runFrom (files : Files) (us : List Update) : Files :=
  us.foldl (fun f u => (setGateAt f u).1) files

/-- Updates of a controller that was never drained. -/
def run (us : List Update) : Files := runFrom ⟨false, none, none⟩ us

def windowsAfter (ws : List PauseWindow) (us : List Update) : List PauseWindow :=
  us.foldl (fun ws u => u.apply ws) ws

theorem windowsAfter_cons (ws : List PauseWindow) (u : Update) (us : List Update) :
    windowsAfter ws (u :: us) = windowsAfter (u.apply ws) us := by
  simp only [windowsAfter, foldl_cons]

theorem Stored.runFrom {files} (h : Stored files ws) (us : List Update) :
    Stored (runFrom files us) (windowsAfter ws us) := by
  induction us generalizing files ws with
  | nil => exact h
  | cons u us ih =>
    rw [windowsAfter_cons]
    exact ih (h.setGateAt u)

theorem stored_run (us : List Update) : Stored (run us) (windowsAfter [] us) :=
  Stored.runFrom ⟨⟨⟨by simp, Pairwise.nil⟩, Nat.zero_le _, rfl⟩, .inl ⟨rfl, rfl⟩⟩ us

/-! ## What pruning leaves of the time -/

theorem elapsed_append {front since through}
    (h : ∀ w ∈ front, ∀ e, w.resumedAtMillis = some e → e ≤ since) :
    elapsed (front ++ ws) since through = elapsed ws since through := by
  induction front with
  | nil => rfl
  | cons w front ih =>
    refine Eq.trans ?_ (ih fun v hv => h v (mem_cons_of_mem _ hv))
    unfold elapsed
    rw [cons_append, filterMap_cons]
    cases hr : w.resumedAtMillis with
    | none => rfl
    | some e =>
      have hle := h w mem_cons_self e hr
      have hz : min e through - max w.effectiveAtMillis since = 0 := by omega
      simp only [Option.map_some, foldl_cons, hz]
      rfl

theorem foldl_saturatingAdd_le {l : List Nat} {a b : Nat} (h : a ≤ b) :
    l.foldl saturatingAdd a ≤ l.foldl saturatingAdd b := by
  induction l generalizing a b with
  | nil => exact h
  | cons n l ih =>
    refine ih ?_
    unfold saturatingAdd
    omega

theorem elapsed_suffix {ws'} (h : ws' <:+ ws) (since through : Nat) :
    elapsed ws' since through ≤ elapsed ws since through := by
  obtain ⟨front, rfl⟩ := h
  unfold elapsed
  rw [filterMap_append, foldl_append]
  exact foldl_saturatingAdd_le (Nat.zero_le _)

theorem Inv.elapsed_recent (h : Inv ws) (u : Update) {since through}
    (hs : unpaused (u.change ws) since u.now.toNat ≤ pauseHistoryActiveMillis) :
    elapsed (pruneByAge (u.change ws) u.now.toNat) since through =
      elapsed (u.change ws) since through := by
  rcases h.idle_or_late u with hi | hl
  · rw [hi]
  have ho := h.toOrdered.change u
  obtain ⟨dropped, hd, hu⟩ := @retained_dropped (u.change ws).reverse u.now.toNat 0
    (fun w hw => ho.sound w (mem_reverse.mp hw)) (pairwise_reverse.mpr ho.order)
    fun w hw => by
      obtain ⟨h1, h2⟩ := ho.le_lastInstant (mem_reverse.mp hw)
      exact ⟨h1.trans hl, fun e he => (h2 e he).trans hl⟩
  unfold pruneByAge
  rw [Nat.max_eq_left hl]
  have hc : u.change ws = dropped.reverse ++
      (retained (u.change ws).reverse u.now.toNat 0).reverse := by
    rw [← reverse_append, ← hd, reverse_reverse]
  have hq : ∀ t < u.now.toNat, paused (u.change ws).reverse t = paused (u.change ws) t := fun t _ =>
    any_reverse
  conv_rhs => rw [hc]
  refine (elapsed_append fun w hw e he => ?_).symm
  obtain ⟨e', he', hlt⟩ := hu w (mem_reverse.mp hw)
  rw [he] at he'
  cases he'
  by_contra hn
  rw [unpaused_congr hq, Nat.zero_add] at hlt
  have := @unpaused_mono (u.change ws) _ _ u.now.toNat (Nat.le_of_not_le hn)
  omega

theorem Ordered.prune_open (h : Ordered ws) {w} (hw : w ∈ ws) (hr : w.resumedAtMillis = none)
    (now : Nat) : w ∈ prunePauseHistory ws now := by
  obtain ⟨init, rfl⟩ := h.open_last hw hr
  rw [prunePauseHistory_eq, reverse_concat, retained, hr]
  simp [maxPauseWindows]

/-- **Pruning is exact.** After any updates, the next one stores a gate that can be read
again and keeps the open window. As long as no window is dropped for their number, the
paused time since any moment that is not more than the horizon of unpaused time ago stays
the same; otherwise it can only become less. -/
theorem pruning_exact (us : List Update) (u : Update) :
    ∃ gate files' gate', readIntegrationGate (run us) = .ok gate ∧
      updateIntegrationGate (run us) u = .ok (files', none) ∧
      readIntegrationGate files' = .ok gate' ∧
      let before := u.change (gate.elim [] IntegrationGate.windows)
      gate'.elim [] IntegrationGate.windows = prunePauseHistory before u.now.toNat ∧
      (∀ w ∈ before, w.resumedAtMillis = none → w ∈ gate'.elim [] IntegrationGate.windows) ∧
      ∀ since through, ∃ n, elapsedPauseTime files' since through = .ok n ∧
        n ≤ elapsed before since through ∧
        ((pruneByAge before u.now.toNat).length ≤ maxPauseWindows → since ≤ through →
          unpaused before since u.now.toNat ≤ pauseHistoryActiveMillis →
          n = elapsed before since through) := by
  have hs := stored_run us
  obtain ⟨files', hu, hs'⟩ := hs.update u
  obtain ⟨gate, hr, hg⟩ := hs.read
  obtain ⟨gate', hr', hg'⟩ := hs'.read
  refine ⟨gate, files', gate', hr, hu, hr', ?_⟩
  dsimp only
  rw [hg, hg']
  refine ⟨rfl, fun w hw hn => (hs.toOrdered.change u).prune_open hw hn _, fun since through =>
    ⟨elapsed (gate'.elim [] IntegrationGate.windows) since through, ?_, ?_, fun hf _ ha => ?_⟩⟩
  · unfold elapsedPauseTime
    rw [hr']
    cases gate' <;> rfl
  · rw [hg']
    exact elapsed_suffix (apply_suffix u _) _ _
  · rw [hg', ← hs.elapsed_recent u ha]
    unfold Update.apply prunePauseHistory
    dsimp only
    rw [Nat.sub_eq_zero_of_le hf, drop_zero]

/-! ## Looking up a window -/

/-- How many windows updates forget. -/
def forgotten (ws : List PauseWindow) : List Update → Nat
  | [] => 0
  | u :: us => (u.change ws).length - (u.apply ws).length + forgotten (u.apply ws) us

/-- The window at this place begins at this time. -/
def BeginsAt (ws : List PauseWindow) (i start : Nat) : Prop :=
  ∃ w, ws[i]? = some w ∧ w.effectiveAtMillis = start

theorem BeginsAt.change {i start} (h : BeginsAt ws i start) (u : Update) :
    BeginsAt (u.change ws) i start := by
  obtain ⟨w, hw, hs⟩ := h
  have hi := (List.getElem?_eq_some_iff.mp hw).1
  rcases change_cases u ws with ⟨-, hc⟩ | ⟨init, last, r, e, rfl, -, -, -, hc⟩ | hc <;> rw [hc]
  · exact ⟨w, by rw [getElem?_append_left hi]; exact hw, hs⟩
  · by_cases hl : i < init.length
    · exact ⟨w, by rw [getElem?_append_left hl] at hw ⊢; exact hw, hs⟩
    · rw [length_append, length_singleton] at hi
      obtain rfl : i = init.length := by omega
      rw [getElem?_concat_length] at hw
      cases hw
      exact ⟨_, getElem?_concat_length, hs⟩
  · exact ⟨w, hw, hs⟩

/-- A window keeps its number and its beginning until it is forgotten. -/
theorem BeginsAt.windowsAfter {i start us} (h : BeginsAt ws i start) (hk : forgotten ws us ≤ i) :
    BeginsAt (windowsAfter ws us) (i - forgotten ws us) start := by
  induction us generalizing ws i with
  | nil => exact h
  | cons u us ih =>
    rw [forgotten] at hk ⊢
    obtain ⟨w, hw, hs⟩ := h.change u
    rw [windowsAfter_cons, ← Nat.sub_sub]
    refine ih ⟨w, ?_, hs⟩ (by omega)
    have hd := suffix_iff_eq_drop.mp (apply_suffix u ws)
    rw [congrArg (·[_]?) hd, getElem?_drop, Nat.add_sub_cancel' (by omega), hw]

/-- Of windows that begin together, all but the last are over as they begin. -/
theorem Ordered.find_eq_iff (h : Ordered ws) {i w} (hi : ws[i]? = some w) :
    ((ws.find? (·.effectiveAtMillis = w.effectiveAtMillis)).elim (some w.effectiveAtMillis)
        PauseWindow.resumedAtMillis = w.resumedAtMillis) ↔
      (∀ v ∈ ws.take i, v.effectiveAtMillis ≠ w.effectiveAtMillis) ∨
        w.resumedAtMillis = some w.effectiveAtMillis := by
  obtain ⟨hlt, hg⟩ := List.getElem?_eq_some_iff.mp hi
  have hws : ws = ws.take i ++ w :: ws.drop (i + 1) := by
    rw [← hg, ← drop_eq_getElem_cons hlt, take_append_drop]
  have ho := h.order
  rw [hws] at ho
  conv_lhs => rw [hws, find?_append]
  cases hf : (ws.take i).find? (·.effectiveAtMillis = w.effectiveAtMillis) with
  | none =>
    have hno := find?_eq_none.mp hf
    simp only [decide_eq_true_eq] at hno
    simpa using .inl hno
  | some v =>
    have hv := mem_of_find?_eq_some hf
    have hs : v.effectiveAtMillis = w.effectiveAtMillis := by simpa using find?_some hf
    obtain ⟨e, he, hle⟩ := (pairwise_append.mp ho).2.2 v hv w mem_cons_self
    have hge := ((h.sound v (mem_of_mem_take hv)).finish e he).1
    obtain rfl : e = w.effectiveAtMillis := by omega
    rw [Option.some_or, Option.elim_some, he, eq_comm]
    exact ⟨.inr, fun h => h.resolve_left fun hn => hn v hv hs⟩

/-- **A parked integration resumes with its own pause exactly when no window that is still
stored began before it in the same millisecond.** The last window is open as the admission
is refused; after further updates it is found unless an earlier one begins with it and it
does not end as it begins. -/
theorem resumedAt_own_iff (us vs : List Update) (now : Nat) {gate init w e}
    (hg : readIntegrationGate (run us) = .ok (some gate)) (hw : gate.windows = init ++ [w])
    (ho : w.resumedAtMillis = none) (ha : integrationAdmission (run us) now = .ok (.error e))
    (hk : forgotten gate.windows vs ≤ init.length) :
    ∃ gate' w', readIntegrationGate (runFrom (run us) vs) = .ok (some gate') ∧
      let i := init.length - forgotten gate.windows vs
      gate'.windows[i]? = some w' ∧ w'.effectiveAtMillis = w.effectiveAtMillis ∧
      e.effectiveAtMillis = w.effectiveAtMillis ∧
      (resumedAt (runFrom (run us) vs) e.effectiveAtMillis = .ok w'.resumedAtMillis ↔
        (∀ v ∈ gate'.windows.take i, v.effectiveAtMillis ≠ w.effectiveAtMillis) ∨
          w'.resumedAtMillis = some w.effectiveAtMillis) := by
  have hs := stored_run us
  obtain ⟨_, hr, hws⟩ := hs.read
  rw [hg] at hr
  cases hr
  have hs' := hs.runFrom vs
  rw [← hws] at hs'
  change Stored _ (windowsAfter gate.windows vs) at hs'
  have hb : BeginsAt gate.windows init.length w.effectiveAtMillis :=
    ⟨w, by rw [hw, getElem?_concat_length], rfl⟩
  obtain ⟨w', hw', hst⟩ := hb.windowsAfter hk
  obtain ⟨later, hr', hws'⟩ := hs'.read
  obtain ⟨gate', rfl⟩ : ∃ gate', later = some gate' := by
    cases later with
    | none =>
      rw [← hws'] at hw'
      cases hw'
    | some gate' => exact ⟨gate', rfl⟩
  have he : e.effectiveAtMillis = w.effectiveAtMillis := by
    have hop : isOpen gate.windows = true := by
      rw [hw, isOpen_concat, ho]
      rfl
    unfold integrationAdmission at ha
    rw [hg] at ha
    change (if ((run us).drained || isOpen gate.windows) = true then _ else _) = _ at ha
    rw [hop, Bool.or_true, if_pos rfl, Option.elim_some, hw, getLast?_concat] at ha
    cases ha
    rfl
  change gate'.windows = _ at hws'
  refine ⟨gate', w', hr', by rw [hws']; exact hw', hst, he, ?_⟩
  have hf := hs'.find_eq_iff hw'
  unfold resumedAt
  rw [hr', he, ← hst]
  refine Iff.trans ?_ (hws' ▸ hf)
  exact ⟨Except.ok.inj, congrArg _⟩

def drainAt (now : UInt64) : Update := ⟨some true, now⟩

def resumeAt (now : UInt64) : Update := ⟨some false, now⟩

/-- The second of two windows is found. -/
theorem resumedAt_own_iff_once : ∃ gate' w',
    readIntegrationGate (runFrom (run [drainAt 2, resumeAt 3, drainAt 5]) [resumeAt 7]) =
        .ok (some gate') ∧ gate'.windows[1]? = some w' ∧ w'.effectiveAtMillis = 5 ∧ 5 = 5 ∧
      (resumedAt (runFrom (run [drainAt 2, resumeAt 3, drainAt 5]) [resumeAt 7]) 5 =
          .ok w'.resumedAtMillis ↔
        (∀ v ∈ gate'.windows.take 1, v.effectiveAtMillis ≠ 5) ∨ w'.resumedAtMillis = some 5) :=
  @resumedAt_own_iff [drainAt 2, resumeAt 3, drainAt 5] [resumeAt 7] 6
    ⟨1, [⟨.controllerDrained, 2, some 3⟩, ⟨.controllerDrained, 5, none⟩]⟩
    [⟨.controllerDrained, 2, some 3⟩] ⟨.controllerDrained, 5, none⟩ ⟨.controllerDrained, 5⟩
    (by decide +kernel) rfl rfl (by decide +kernel) (by decide +kernel)

/-- Drained, resumed and drained again within one millisecond: the second pause is open,
but the first one is found, and the integration goes on. -/
theorem resumed_by_earlier_pause :
    integrationAdmission (run [drainAt 5, resumeAt 5, drainAt 5]) 5 =
        .ok (.error ⟨.controllerDrained, 5⟩) ∧
      readIntegrationGate (run [drainAt 5, resumeAt 5, drainAt 5]) =
        .ok (some ⟨1, [⟨.controllerDrained, 5, some 5⟩, ⟨.controllerDrained, 5, none⟩]⟩) ∧
      resumedAt (run [drainAt 5, resumeAt 5, drainAt 5]) 5 = .ok (some 5) := by
  decide +kernel

end MacWorker.Drain
