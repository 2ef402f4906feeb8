import Mathlib.Algebra.BigOperators.Group.List.Basic
import Mathlib.Algebra.Order.Group.Nat
import Mathlib.Order.Basic
import Mathlib.Tactic.IntervalCases

/-! # The proleptic Gregorian calendar

Dates by the rule for leap years, before 1582 and before the year 1 as after, and their day numbers
since 1970-01-01. Day numbers count the days: the first is 0 and the next day has the next number
(`dayNumber_next`), and of two dates the earlier one has the smaller number (`dayNumber_lt_iff`), so a
day number belongs to one date only (`dayNumber_inj`). -/

namespace Gregorian

def IsLeap (y : Int) : Prop := y % 4 = 0 ∧ (y % 100 ≠ 0 ∨ y % 400 = 0)

instance (y : Int) : Decidable (IsLeap y) := inferInstanceAs (Decidable (_ ∧ _))

def daysInMonth (y : Int) (m : Nat) : Nat :=
  if m = 2 then if IsLeap y then 29 else 28
  else if m = 4 ∨ m = 6 ∨ m = 9 ∨ m = 11 then 30
  else 31

theorem daysInMonth_le (y : Int) (m : Nat) : daysInMonth y m ≤ 31 := by
  unfold daysInMonth
  split_ifs <;> decide

structure CivilDate where
  year : Int
  month : Nat
  day : Nat
  deriving DecidableEq, Repr

/-- The month exists, and has the day. -/
structure CivilDate.Valid (d : CivilDate) : Prop where
  one_le_month : 1 ≤ d.month
  month_le : d.month ≤ 12
  one_le_day : 1 ≤ d.day
  day_le : d.day ≤ daysInMonth d.year d.month

/-- The days of the years before `y`, from the year 0 on; negative before it. -/
def daysBeforeYear (y : Int) : Int := 365 * y + (y + 3) / 4 - (y + 99) / 100 + (y + 399) / 400

/-- The days of the months before `m` in one year. -/
def daysBeforeMonth (y : Int) (m : Nat) : Nat :=
  ((List.range (m - 1)).map fun k => daysInMonth y (k + 1)).sum

/-- The number of days since 1970-01-01. -/
def CivilDate.dayNumber (d : CivilDate) : Int :=
  daysBeforeYear d.year + daysBeforeMonth d.year d.month + d.day - 1 - 719528

/-- The day after a date. -/
def CivilDate.next (d : CivilDate) : CivilDate :=
  if d.day < daysInMonth d.year d.month then { d with day := d.day + 1 }
  else if d.month < 12 then ⟨d.year, d.month + 1, 1⟩
  else ⟨d.year + 1, 1, 1⟩

example : CivilDate.dayNumber ⟨1970, 1, 1⟩ = 0 := by decide

/-! ## Counting days -/

theorem daysBeforeMonth_succ (y : Int) {m : Nat} (hm : 1 ≤ m) :
    daysBeforeMonth y (m + 1) = daysBeforeMonth y m + daysInMonth y m := by
  obtain ⟨m, rfl⟩ := Nat.exists_eq_add_of_le' hm
  rw [daysBeforeMonth, daysBeforeMonth, Nat.add_sub_cancel, Nat.add_sub_cancel, List.range_succ,
    List.map_append, List.sum_append, List.map_singleton, List.sum_singleton]

/-- The months of a year, one after another. -/
theorem daysBeforeMonth_eq (y : Int) :
    (List.range 13).map (fun k => daysBeforeMonth y (k + 1)) =
      if IsLeap y then [0, 31, 60, 91, 121, 152, 182, 213, 244, 274, 305, 335, 366]
      else [0, 31, 59, 90, 120, 151, 181, 212, 243, 273, 304, 334, 365] := by
  by_cases h : IsLeap y
  · simp [daysBeforeMonth, daysInMonth, List.range_succ, h]
  · simp [daysBeforeMonth, daysInMonth, List.range_succ, h]

theorem daysBeforeYear_succ (y : Int) :
    daysBeforeYear (y + 1) = daysBeforeYear y + daysBeforeMonth y 13 := by
  have hlast := congrArg (fun l => l[12]?) (daysBeforeMonth_eq y)
  by_cases h : IsLeap y
  · rw [if_pos h] at hlast
    have hyear : daysBeforeMonth y 13 = 366 := by simpa using hlast
    rw [hyear, daysBeforeYear, daysBeforeYear]
    unfold IsLeap at h
    omega
  · rw [if_neg h] at hlast
    have hyear : daysBeforeMonth y 13 = 365 := by simpa using hlast
    rw [hyear, daysBeforeYear, daysBeforeYear]
    unfold IsLeap at h
    omega

/-- **The next day has the next number.** -/
theorem dayNumber_next {d : CivilDate} (hd : d.Valid) : d.next.dayNumber = d.dayNumber + 1 := by
  rw [CivilDate.next]
  by_cases hday : d.day < daysInMonth d.year d.month
  · rw [if_pos hday, CivilDate.dayNumber, CivilDate.dayNumber]
    push_cast
    omega
  · have hlast : d.day = daysInMonth d.year d.month := le_antisymm hd.day_le (not_lt.mp hday)
    have hmonth := daysBeforeMonth_succ d.year hd.one_le_month
    rw [if_neg hday]
    by_cases hdec : d.month < 12
    · rw [if_pos hdec, CivilDate.dayNumber, CivilDate.dayNumber]
      dsimp only
      omega
    · have hdec : d.month = 12 := le_antisymm hd.month_le (not_lt.mp hdec)
      have hyear := daysBeforeYear_succ d.year
      have hfirst : daysBeforeMonth (d.year + 1) 1 = 0 := rfl
      have hdecember : daysBeforeMonth d.year 13 = daysBeforeMonth d.year 12 + daysInMonth d.year 12 :=
        daysBeforeMonth_succ d.year (by decide)
      rw [hdec] at hlast
      rw [if_neg (by omega), CivilDate.dayNumber, CivilDate.dayNumber, hdec]
      dsimp only
      omega

/-- **From March on**, months have 31 and 30 days in turn, five of them 153. -/
theorem daysInMonth_of_march (y : Int) {n : Nat} (hn : n ≤ 9) :
    (153 * n + 2) / 5 + daysInMonth y (n + 3) = (153 * (n + 1) + 2) / 5 := by
  interval_cases n <;> rfl

theorem daysBeforeMonth_of_march (y : Int) {n : Nat} (hn : n ≤ 10) :
    daysBeforeMonth y (n + 3) = daysBeforeMonth y 3 + (153 * n + 2) / 5 := by
  induction n with
  | zero => rfl
  | succ n ih =>
      rw [Nat.add_right_comm, daysBeforeMonth_succ y (Nat.le_add_left 1 _), ih (by omega),
        Nat.add_assoc, daysInMonth_of_march y (by omega)]

/-- An era of 400 years has 146097 days. -/
theorem daysBeforeYear_add_era (y era : Int) :
    daysBeforeYear (y + era * 400) = daysBeforeYear y + era * 146097 := by
  rw [daysBeforeYear, daysBeforeYear]
  omega

/-! ## The order of dates -/

/-- The date comes before another one: by year, then by month, then by day. -/
def CivilDate.Before (d d' : CivilDate) : Prop :=
  d.year < d'.year ∨ d.year = d'.year ∧ (d.month < d'.month ∨ d.month = d'.month ∧ d.day < d'.day)

theorem daysBeforeMonth_mono (y : Int) {m m' : Nat} (hm : 1 ≤ m) (h : m ≤ m') :
    daysBeforeMonth y m ≤ daysBeforeMonth y m' := by
  induction h with
  | refl => exact le_rfl
  | step hle ih =>
      rw [daysBeforeMonth_succ y (hm.trans hle)]
      exact ih.trans (Nat.le_add_right _ _)

theorem daysBeforeYear_mono {y y' : Int} (h : y ≤ y') : daysBeforeYear y ≤ daysBeforeYear y' := by
  rw [daysBeforeYear, daysBeforeYear]
  omega

/-- A day lies before the next month, and within its year. -/
theorem CivilDate.Valid.daysBefore_le {d : CivilDate} (h : d.Valid) :
    daysBeforeMonth d.year d.month + d.day ≤ daysBeforeMonth d.year (d.month + 1) ∧
      daysBeforeMonth d.year d.month + d.day ≤ daysBeforeMonth d.year 13 := by
  have hle : daysBeforeMonth d.year d.month + d.day ≤ daysBeforeMonth d.year (d.month + 1) := by
    rw [daysBeforeMonth_succ d.year h.one_le_month]
    exact Nat.add_le_add_left h.day_le _
  have hmonth := h.month_le
  exact ⟨hle, hle.trans (daysBeforeMonth_mono d.year (by omega) (by omega))⟩

/-- **An earlier date has a smaller number.** -/
theorem dayNumber_lt {d d' : CivilDate} (hd : d.Valid) (hd' : 1 ≤ d'.month ∧ 1 ≤ d'.day)
    (h : d.Before d') : d.dayNumber < d'.dayNumber := by
  obtain ⟨hnext, hyear⟩ := hd.daysBefore_le
  rw [CivilDate.dayNumber, CivilDate.dayNumber]
  rcases h with hlt | ⟨heq, hlt | ⟨hmonth, hday⟩⟩
  · have hsucc := daysBeforeYear_succ d.year
    have hmono := daysBeforeYear_mono (show d.year + 1 ≤ d'.year from hlt)
    omega
  · have hmono := daysBeforeMonth_mono d'.year (Nat.le_add_left 1 d.month) hlt
    rw [heq] at hnext ⊢
    omega
  · rw [heq, hmonth]
    omega

theorem CivilDate.before_or (d d' : CivilDate) : d.Before d' ∨ d = d' ∨ d'.Before d := by
  obtain ⟨y, m, day⟩ := d
  obtain ⟨y', m', day'⟩ := d'
  unfold Before
  simp only [CivilDate.mk.injEq]
  omega

theorem dayNumber_lt_iff {d d' : CivilDate} (hd : d.Valid) (hd' : d'.Valid) :
    d.dayNumber < d'.dayNumber ↔ d.Before d' := by
  refine ⟨fun hlt => ?_, dayNumber_lt hd ⟨hd'.one_le_month, hd'.one_le_day⟩⟩
  rcases d.before_or d' with h | rfl | h
  · exact h
  · exact absurd hlt (lt_irrefl _)
  · exact absurd hlt (dayNumber_lt hd' ⟨hd.one_le_month, hd.one_le_day⟩ h).asymm

/-- **A day number belongs to one date.** -/
theorem dayNumber_inj {d d' : CivilDate} (hd : d.Valid) (hd' : d'.Valid)
    (h : d.dayNumber = d'.dayNumber) : d = d' := by
  rcases d.before_or d' with hlt | heq | hlt
  · exact absurd h (dayNumber_lt hd ⟨hd'.one_le_month, hd'.one_le_day⟩ hlt).ne
  · exact heq
  · exact absurd h (dayNumber_lt hd' ⟨hd.one_le_month, hd.one_le_day⟩ hlt).ne'

end Gregorian
