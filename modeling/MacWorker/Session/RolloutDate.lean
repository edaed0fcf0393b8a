import Mathlib.Logic.Function.Iterate
import Mathlib.Tactic.IntervalCases
import Mathlib.Data.Nat.ModEq
import Mathlib.Tactic.SplitIfs

/-! # The date in the name of a rollout file -/
namespace MacWorker.Session

/-- A subtraction of unsigned integers, `none` where it would go below zero. -/
def checkedSub (a b : Nat) : Option Nat := if b ≤ a then some (a - b) else none

structure Date where
  (year month day : Nat)

/-- Days since the first of January 1970 come from a 64-bit number of milliseconds, so no sum here
reaches `2 ^ 64`. -/
def civilFromDays (days : Nat) : Option Date := do
  let shifted := days + 719468
  let era := shifted / 146097
  let dayOfEra := shifted % 146097
  let counted ← checkedSub dayOfEra (dayOfEra / 1460)
  let yearOfEra := (← checkedSub (counted + dayOfEra / 36524) (dayOfEra / 146096)) / 365
  let year := yearOfEra + era * 400
  let dayOfYear ← checkedSub dayOfEra
    (← checkedSub (365 * yearOfEra + yearOfEra / 4) (yearOfEra / 100))
  let marchMonth := (5 * dayOfYear + 2) / 153
  let day := (← checkedSub dayOfYear ((153 * marchMonth + 2) / 5)) + 1
  let month ← if marchMonth < 10 then some (marchMonth + 3) else checkedSub marchMonth 9
  return ⟨if month ≤ 2 then year + 1 else year, month, day⟩

structure Stamp where
  date : Date
  (hour minute second : Nat)

def rolloutStamp (placedAtMillis : Nat) : Option Stamp := do
  let seconds := placedAtMillis / 1000
  let date ← civilFromDays (seconds / 86400)
  let time := seconds % 86400
  return ⟨date, time / 3600, time / 60 % 60, time % 60⟩

def padded (width n : Nat) : String :=
  let digits := Nat.toDigits 10 n
  .ofList (.replicate (width - digits.length) '0' ++ digits)

def Stamp.path (s : Stamp) (sessionId : String) : String :=
  let year := padded 4 s.date.year
  let month := padded 2 s.date.month
  let day := padded 2 s.date.day
  let time := s!"{padded 2 s.hour}-{padded 2 s.minute}-{padded 2 s.second}"
  s!"sessions/{year}/{month}/{day}/rollout-{year}-{month}-{day}T{time}-{sessionId}.jsonl"

def rolloutPath (placedAtMillis : Nat) (sessionId : String) : Option String :=
  (rolloutStamp placedAtMillis).map (·.path sessionId)

/-! ## The calendar -/

def IsLeap (year : Nat) : Prop := year % 4 = 0 ∧ (year % 100 ≠ 0 ∨ year % 400 = 0)

instance (year : Nat) : Decidable (IsLeap year) := inferInstanceAs (Decidable (_ ∧ _))

def daysInMonth (year : Nat) : Nat → Nat
  | 2 => if IsLeap year then 29 else 28
  | 4 | 6 | 9 | 11 => 30
  | _ => 31

def Date.next (d : Date) : Date :=
  if d.day < daysInMonth d.year d.month then { d with day := d.day + 1 }
  else if d.month < 12 then ⟨d.year, d.month + 1, 1⟩
  else ⟨d.year + 1, 1, 1⟩

def Date.Valid (d : Date) : Prop :=
  1 ≤ d.month ∧ d.month ≤ 12 ∧ 1 ≤ d.day ∧ d.day ≤ daysInMonth d.year d.month

def Date.Before (a b : Date) : Prop :=
  a.year < b.year ∨ a.year = b.year ∧ (a.month < b.month ∨ a.month = b.month ∧ a.day < b.day)

instance (d : Date) : Decidable d.Valid := inferInstanceAs (Decidable (_ ∧ _))

/-- The date so many days after the first of January 1970. -/
def dateAfter (days : Nat) : Date := Date.next^[days] ⟨1970, 1, 1⟩

theorem daysInMonth_pos (year month : Nat) : 1 ≤ daysInMonth year month := by
  unfold daysInMonth
  split <;> (try split) <;> decide

theorem Date.Valid.next {d : Date} (h : d.Valid) : d.next.Valid := by
  have hpos := daysInMonth_pos
  obtain ⟨hm, hm', hd, hd'⟩ := h
  rw [Date.next]
  split
  · exact ⟨hm, hm', by simp, by simpa⟩
  · split
    · exact ⟨by simp, by dsimp only; omega, Nat.le_refl 1, hpos ..⟩
    · exact ⟨Nat.le_refl 1, by simp, Nat.le_refl 1, hpos ..⟩

theorem Date.before_next (d : Date) : d.Before d.next := by
  rw [Date.next]
  split
  · exact .inr ⟨rfl, .inr ⟨rfl, Nat.lt_succ_self _⟩⟩
  · split
    · exact .inr ⟨rfl, .inl (Nat.lt_succ_self _)⟩
    · exact .inl (Nat.lt_succ_self _)

theorem Date.not_before_self {d : Date} : ¬d.Before d := by
  unfold Date.Before
  omega

theorem dateAfter_succ (days : Nat) : dateAfter (days + 1) = (dateAfter days).next :=
  Function.iterate_succ_apply' ..

theorem dateAfter_valid (days : Nat) : (dateAfter days).Valid := by
  induction days with
  | zero => decide
  | succ days ih => exact dateAfter_succ days ▸ ih.next

theorem dateAfter_before {a b : Nat} (h : a < b) : (dateAfter a).Before (dateAfter b) := by
  induction b, h using Nat.le_induction with
  | base => exact dateAfter_succ a ▸ Date.before_next _
  | succ b _ ih =>
    have hnext := dateAfter_succ b ▸ (dateAfter b).before_next
    unfold Date.Before at *
    omega

/-! ## Years that begin in March -/

/-- The first day of the year that begins in March of `year`. -/
def marchStart (year : Nat) : Nat := 365 * year + year / 4 - year / 100 + year / 400

theorem marchStart_succ (year : Nat) :
    marchStart (year + 1) = marchStart year + if IsLeap (year + 1) then 366 else 365 := by
  have hle : year / 100 ≤ year := Nat.div_le_self ..
  have h100 : (year + 1) % 100 = 0 → (year + 1) % 4 = 0 := by omega
  have h400 : (year + 1) % 400 = 0 → (year + 1) % 100 = 0 := by omega
  simp only [marchStart, Nat.succ_div, Nat.dvd_iff_mod_eq_zero]
  generalize year / 4 = a, year / 100 = b, year / 400 = c at *
  by_cases hl : IsLeap (year + 1)
  · rw [if_pos hl]
    unfold IsLeap at hl
    split_ifs <;> omega
  · rw [if_neg hl]
    unfold IsLeap at hl
    split_ifs <;> omega

def marchDate (year day : Nat) : Date :=
  let month := (5 * day + 2) / 153
  if month < 10 then ⟨year, month + 3, day - (153 * month + 2) / 5 + 1⟩
  else ⟨year + 1, month - 9, day - (153 * month + 2) / 5 + 1⟩

theorem marchDate_february {year day : Nat} (h : (5 * day + 2) / 153 = 11) :
    marchDate year day = ⟨year + 1, 2, day - 336⟩ := by
  simp only [marchDate, h, Nat.reduceLT, Nat.reduceMul, Nat.reduceAdd, Nat.reduceDiv, if_false,
    Date.mk.injEq, true_and]
  omega

theorem marchDate_next {year day : Nat} (h : marchStart year + day + 1 < marchStart (year + 1)) :
    (marchDate year day).next = marchDate year (day + 1) := by
  rw [marchStart_succ, Nat.add_assoc, Nat.add_lt_add_iff_left] at h
  obtain ⟨m, hm⟩ : ∃ m, m = (5 * day + 2) / 153 := ⟨_, rfl⟩
  have hlt : m < 12 := by split at h <;> omega
  rcases Nat.lt_or_eq_of_le (Nat.lt_succ_iff.mp hlt) with hf | rfl
  · -- The other months have the same length every year.
    clear h
    have hn : (5 * (day + 1) + 2) / 153 = m ∨ (5 * (day + 1) + 2) / 153 = m + 1 := by omega
    interval_cases m <;> rcases hn with hn | hn <;>
      simp only [Date.next, marchDate, daysInMonth, ← hm, hn, Nat.reduceLT, Nat.reduceAdd,
        Nat.reduceMul, Nat.reduceDiv, Nat.reduceSub, if_true, if_false] <;>
      split <;> simp only [Date.mk.injEq, true_and] <;> omega
  · rw [marchDate_february hm.symm, marchDate_february (by split at h <;> omega), Date.next, if_pos]
    · simp only [Date.mk.injEq, true_and]
      omega
    · simp only [daysInMonth]
      split at h
      · rw [if_pos ‹_›]
        omega
      · rw [if_neg ‹_›]
        omega

theorem marchDate_last {year day : Nat} (h : marchStart year + day + 1 = marchStart (year + 1)) :
    (marchDate year day).next = marchDate (year + 1) 0 := by
  rw [marchStart_succ, Nat.add_assoc, Nat.add_left_cancel_iff] at h
  rw [marchDate_february (by split at h <;> omega), Date.next, if_neg]
  · rfl
  · simp only [daysInMonth]
    split at h
    · rw [if_pos ‹_›]
      omega
    · rw [if_neg ‹_›]
      omega

theorem exists_march (days : Nat) : ∃ year day, 719468 + days = marchStart year + day ∧
    719468 + days < marchStart (year + 1) ∧ dateAfter days = marchDate year day := by
  induction days with
  | zero => exact ⟨1969, 306, by simp [marchStart], by simp [marchStart], rfl⟩
  | succ days ih =>
    obtain ⟨year, day, heq, hlt, hdate⟩ := ih
    rw [dateAfter_succ, hdate]
    by_cases hin : 719468 + days + 1 < marchStart (year + 1)
    · exact ⟨year, day + 1, by omega, by omega, marchDate_next (by omega)⟩
    · refine ⟨year + 1, 0, by omega, ?_, marchDate_last (by omega)⟩
      rw [marchStart_succ (year + 1)]
      split <;> omega

/-! ## The formula of the source -/

theorem checkedSub_eq {a b c : Nat} (h : a = b + c) : checkedSub a b = some c := by
  rw [checkedSub, if_pos (by omega), h, Nat.add_sub_cancel_left]

def yearOfEra (day : Nat) : Nat := (day - day / 1460 + day / 36524 - day / 146096) / 365

theorem yearOfEra_eq {c q s : Nat} (hc : c < 4) (hs : s < 1461) (h : 1461 * q + s < 36524) :
    yearOfEra (36524 * c + 1461 * q + s) = 100 * c + 4 * q + min (s / 365) 3 := by
  have h1 : (36524 * c + 1461 * q + s) / 1460 = 25 * c + q + (24 * c + q + s) / 1460 := by omega
  have h2 : (36524 * c + 1461 * q + s) / 36524 = c := by omega
  have h3 : (36524 * c + 1461 * q + s) / 146096 = 0 := by omega
  have h4 : (24 * c + q + s) / 1460 = if 24 * c + q + s < 1460 then 0 else 1 := by split <;> omega
  rw [yearOfEra, h1, h2, h3, h4]
  split <;> omega

theorem civilFromDays_march {days year day : Nat} (h : 719468 + days = marchStart year + day)
    (hlt : 719468 + days < marchStart (year + 1)) :
    civilFromDays days = some (marchDate year day) := by
  -- The year's place in its era, in centuries, in groups of four years and in years.
  obtain ⟨era, c, q, r, hc, hq, hr, rfl⟩ : ∃ era c q r, c < 4 ∧ q < 25 ∧ r < 4 ∧
      year = 400 * era + (100 * c + 4 * q + r) :=
    ⟨year / 400, year % 400 / 100, year % 100 / 4, year % 4, by omega, by omega, by omega, by omega⟩
  obtain ⟨y, hy⟩ : ∃ y, y = 100 * c + 4 * q + r := ⟨_, rfl⟩
  have hy4 : y / 4 = 25 * c + q := by omega
  have hy100 : y / 100 = c := by omega
  rw [← hy] at h hlt ⊢
  rw [h, marchStart_succ, Nat.add_lt_add_iff_left] at hlt
  have hstart : marchStart (400 * era + y) = 146097 * era + (36524 * c + 1461 * q + 365 * r) := by
    have h4 : (400 * era + y) / 4 = 100 * era + 25 * c + q := by omega
    have h100 : (400 * era + y) / 100 = 4 * era + c := by omega
    have h400 : (400 * era + y) / 400 = era := by omega
    rw [marchStart, h4, h100, h400]
    omega
  have hday : day < 365 ∨ day = 365 ∧ r = 3 ∧ (q < 24 ∨ c = 3) := by
    split at hlt
    · rename_i hl
      unfold IsLeap at hl
      omega
    · omega
  have hcivil : yearOfEra (36524 * c + 1461 * q + 365 * r + day) = y := by
    by_cases hlast : 1461 * q + 365 * r + day < 36524
    · rw [show 36524 * c + 1461 * q + 365 * r + day = 36524 * c + 1461 * q +
        (365 * r + day) by omega,
        yearOfEra_eq hc (by omega) (by omega)]
      omega
    · -- Only the last day of an era is left.
      obtain ⟨rfl, rfl, rfl, rfl⟩ : c = 3 ∧ q = 24 ∧ r = 3 ∧ day = 365 := by omega
      rw [hy]
      rfl
  obtain ⟨d, hd⟩ : ∃ d, d = 36524 * c + 1461 * q + 365 * r + day := ⟨_, rfl⟩
  rw [← hd] at hcivil
  have hera : (days + 719468) / 146097 = era := by omega
  have hof : (days + 719468) % 146097 = d := by omega
  have hcounted : checkedSub d (d / 1460) = some (d - d / 1460) := checkedSub_eq (by omega)
  have hadded : checkedSub (d - d / 1460 + d / 36524) (d / 146096) =
      some (d - d / 1460 + d / 36524 - d / 146096) := checkedSub_eq (by omega)
  have hbefore : checkedSub (365 * y + (25 * c + q)) c = some (36524 * c + 1461 * q + 365 * r) :=
    checkedSub_eq (by omega)
  simp only [civilFromDays, hera, hof, hcounted, hadded, Option.bind_eq_bind, Option.bind_some]
  rw [← yearOfEra, hcivil, hy4, hy100, hbefore, Option.bind_some, checkedSub_eq hd,
    Option.bind_some]
  obtain ⟨m, hm⟩ : ∃ m, m = (5 * day + 2) / 153 := ⟨_, rfl⟩
  rw [← hm, @checkedSub_eq day _ (day - (153 * m + 2) / 5) (by omega), Option.bind_some, marchDate,
    ← hm, Nat.add_comm y, Nat.mul_comm era]
  by_cases hmonth : m < 10
  · simp only [hmonth, if_true, Option.pure_def, if_neg (show ¬m + 3 ≤ 2 by omega)]
  · simp only [hmonth, if_false, @checkedSub_eq m 9 (m - 9) (by omega), Option.bind_some,
      Option.pure_def, if_pos (show m - 9 ≤ 2 by omega)]

theorem civilFromDays_eq (days : Nat) : civilFromDays days = some (dateAfter days) := by
  obtain ⟨year, day, h, hlt, hdate⟩ := exists_march days
  rw [civilFromDays_march h hlt, hdate]

/-- The date of a rollout file is the calendar's, and its name tells the second it was placed. -/
theorem rollout_date_exact :
    (∀ days, civilFromDays days = some (dateAfter days) ∧ (dateAfter days).Valid) ∧
      (∀ a b, a < b → (dateAfter a).Before (dateAfter b)) ∧
      (∀ millis, ∃ s, rolloutStamp millis = some s ∧ s.date = dateAfter (millis / 86400000) ∧
        s.hour < 24 ∧ s.minute < 60 ∧ s.second < 60 ∧
        ∀ id, rolloutPath millis id = some (s.path id)) ∧
      ∀ a b, rolloutStamp a = rolloutStamp b → a / 1000 = b / 1000 := by
  have hstamp : ∀ millis, rolloutStamp millis = some ⟨dateAfter (millis / 1000 / 86400),
      millis / 1000 % 86400 / 3600, millis / 1000 % 86400 / 60 % 60,
        millis / 1000 % 86400 % 60⟩ := by
    intro millis
    simp only [rolloutStamp, civilFromDays_eq, Option.bind_eq_bind, Option.bind_some,
      Option.pure_def]
  refine ⟨fun days => ⟨civilFromDays_eq days, dateAfter_valid days⟩, fun _ _ => dateAfter_before,
    fun millis => ⟨_, hstamp millis, ?_, ?_, ?_, ?_, fun id => ?_⟩, fun a b h => ?_⟩
  · rw [Nat.div_div_eq_div_mul]
  · dsimp only
    omega
  · exact Nat.mod_lt _ (by decide)
  · exact Nat.mod_lt _ (by decide)
  · rw [rolloutPath, hstamp, Option.map_some]
  · rw [hstamp, hstamp, Option.some.injEq, Stamp.mk.injEq] at h
    have hdays : a / 1000 / 86400 = b / 1000 / 86400 := by
      rcases Nat.lt_trichotomy (a / 1000 / 86400) (b / 1000 / 86400) with hlt | heq | hlt
      · exact (Date.not_before_self (h.1 ▸ dateAfter_before hlt)).elim
      · exact heq
      · exact (Date.not_before_self (h.1 ▸ dateAfter_before hlt)).elim
    omega

end MacWorker.Session
