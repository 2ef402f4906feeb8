import LsmGraph.Library.Gregorian
import Mathlib.Data.UInt
import Mathlib.Tactic.IntervalCases

/-! # Birthdays

The calendar functions of `snb/queries.rs`, which IC10 picks birthdays with. The computation is in
checked 64-bit arithmetic here: `none` is an overflow. There is none for any timestamp, and the date is
the one of the proleptic Gregorian calendar (`civil_exact`). -/

namespace LsmGraph

open Gregorian

def dayMs : Int := 86400000

/-- The result of an operation on `i64`, if it does not overflow. -/
def i64 (v : Int) : Option Int := if -2 ^ 63 ≤ v ∧ v < 2 ^ 63 then some v else none

/-- `civil_from_days`; `/` rounds towards zero, and the casts cut off. -/
def civilFromDays (daysSinceEpoch : Int) : Option (Int32 × UInt32 × UInt32) := do
  let z ← i64 (daysSinceEpoch + 719468)
  let shifted ← (if 0 ≤ z then some z else i64 (z - 146096))
  let era ← i64 (shifted.tdiv 146097)
  let doe ← i64 (z - (← i64 (era * 146097)))
  let a ← i64 (doe - doe.tdiv 1460)
  let b ← i64 (a + doe.tdiv 36524)
  let c ← i64 (b - doe.tdiv 146096)
  let yoe ← i64 (c.tdiv 365)
  let y ← i64 (yoe + (← i64 (era * 400)))
  let e ← i64 ((← i64 (365 * yoe)) + yoe.tdiv 4)
  let f ← i64 (e - yoe.tdiv 100)
  let doy ← i64 (doe - f)
  let mp ← i64 ((← i64 ((← i64 (5 * doy)) + 2)).tdiv 153)
  let before ← i64 ((← i64 (153 * mp)) + 2)
  let day ← i64 ((← i64 (doy - before.tdiv 5)) + 1)
  let month ← i64 (mp + if mp < 10 then 3 else -9)
  let year ← i64 (y + if month ≤ 2 then 1 else 0)
  some (Int32.ofInt year, UInt32.ofInt month, UInt32.ofInt day)

/-- `civil_from_unix_ms`; `div_euclid` by a positive number rounds down. -/
def civilFromUnixMs (tsMs : Int64) : Option (Int32 × UInt32 × UInt32) :=
  civilFromDays (tsMs.toInt / dayMs)

def birthdayInMonthDayRange (tsMs : Int64) (month : UInt32) : Option Bool := do
  let (_, m, d) ← civilFromUnixMs tsMs
  let nextM := if month = 12 then 1 else month + 1
  some ((m == month && 21 ≤ d) || (m == nextM && d < 22))

/-! ## The conversion -/

/-- A day of the era of 400 years: day `r` of year `j` of leap cycle `k` of century `c`, where years
start in March. -/
structure EraDay (doe c k j r : Int) : Prop where
  century : 0 ≤ c ∧ c ≤ 3
  cycle : 0 ≤ k ∧ k ≤ 24
  year : 0 ≤ j ∧ j ≤ 3
  doe_eq : doe = 36524 * c + 1461 * k + 365 * j + r
  zero_le_day : 0 ≤ r
  day_le : r ≤ 364 ∨ r = 365 ∧ j = 3 ∧ (k ≤ 23 ∨ c = 3)

theorem exists_eraDay {doe : Int} (h : 0 ≤ doe ∧ doe < 146097) : ∃ c k j r, EraDay doe c k j r := by
  obtain ⟨c, hc⟩ : ∃ c, c = min (doe / 36524) 3 := ⟨_, rfl⟩
  obtain ⟨k, hk⟩ : ∃ k, k = (doe - 36524 * c) / 1461 := ⟨_, rfl⟩
  obtain ⟨j, hj⟩ : ∃ j, j = min ((doe - 36524 * c - 1461 * k) / 365) 3 := ⟨_, rfl⟩
  refine ⟨c, k, j, doe - 36524 * c - 1461 * k - 365 * j, ?_⟩
  exact
    { century := by omega
      cycle := by omega
      year := by omega
      doe_eq := by omega
      zero_le_day := by omega
      day_le := by omega }

/-- The corrections of the code leave the number of whole years, and the day of the year. -/
theorem EraDay.yearOfEra {doe c k j r : Int} (h : EraDay doe c k j r) :
    (doe - doe / 1460 + doe / 36524 - doe / 146096) / 365 = 100 * c + 4 * k + j ∧
      doe - (365 * (100 * c + 4 * k + j) + (100 * c + 4 * k + j) / 4 -
        (100 * c + 4 * k + j) / 100) = r := by
  obtain ⟨hc, hk, hj, hdoe, hr, hday⟩ := h
  have hcenturies : doe / 36524 = c + doe / 146096 := by
    -- only the last day of the era reaches beyond its century
    have hrest : 1461 * k + 365 * j + r ≤ 36523 ∨ c = 3 ∧ 1461 * k + 365 * j + r = 36524 := by omega
    rcases hrest with hrest | ⟨rfl, hrest⟩
    · have hcentury : doe / 36524 = c := by omega
      have hera : doe / 146096 = 0 := by omega
      rw [hcentury, hera, Int.add_zero]
    · have hlast : doe = 146096 := by omega
      rw [hlast]
      rfl
  constructor
  · -- one day too many is taken off at most, and only late in a leap cycle
    by_cases hlate : 1460 ≤ 24 * c + k + 365 * j + r
    · have hcycles : doe / 1460 = 25 * c + k + 1 := by omega
      rw [hcycles, hcenturies]
      omega
    · have hcycles : doe / 1460 = 25 * c + k := by omega
      rw [hcycles, hcenturies]
      omega
  · omega

/-- **Months counted from March.** Day `r` of the year that starts in March of the year `Y`. -/
theorem date_of_march {Y r mp : Int} (hr : 0 ≤ r) (hday : r ≤ 364 ∨ r = 365 ∧ IsLeap (Y + 1))
    (hmp : mp = (5 * r + 2) / 153) :
    ∃ date : CivilDate, date.Valid ∧
      date.dayNumber = daysBeforeYear (Y + 1) - 306 + r - 719528 ∧
      (date.day : Int) = r - (153 * mp + 2) / 5 + 1 ∧
      (date.month : Int) = mp + (if mp < 10 then 3 else -9) ∧
      date.year = Y + (if mp + (if mp < 10 then 3 else -9) ≤ 2 then 1 else 0) := by
  have hrange : 0 ≤ mp ∧ mp ≤ 11 := by omega
  obtain ⟨day, hd⟩ : ∃ day : Nat, (day : Int) = r - (153 * mp + 2) / 5 + 1 :=
    ⟨(r - (153 * mp + 2) / 5 + 1).toNat, by omega⟩
  by_cases hmarch : mp < 10
  · -- March to December of the same year
    obtain ⟨n, rfl⟩ : ∃ n : Nat, (n : Int) = mp := ⟨mp.toNat, by omega⟩
    have hlength := @daysInMonth_of_march Y n (by omega)
    have hbefore := @daysBeforeMonth_of_march Y n (by omega)
    have hyear : daysBeforeMonth Y 13 = daysBeforeMonth Y 3 + 306 :=
      @daysBeforeMonth_of_march Y 10 le_rfl
    have hsucc := daysBeforeYear_succ Y
    obtain ⟨q, hq⟩ : ∃ q, q = (153 * n + 2) / 5 := ⟨_, rfl⟩
    have hqInt : (153 * (n : Int) + 2) / 5 = q := by omega
    rw [← hq] at hlength hbefore
    rw [hqInt] at hd
    rw [if_pos hmarch, if_neg (by omega), hqInt]
    refine ⟨⟨Y, n + 3, day⟩, ⟨?_, ?_, ?_, ?_⟩, ?_, hd, rfl, (Int.add_zero Y).symm⟩
    · change 1 ≤ n + 3
      omega
    · change n + 3 ≤ 12
      omega
    · change 1 ≤ day
      omega
    · change day ≤ daysInMonth Y (n + 3)
      omega
    · change daysBeforeYear Y + daysBeforeMonth Y (n + 3) + day - 1 - 719528 = _
      omega
  · -- January and February belong to the next year
    rw [if_neg hmarch, if_pos (by omega)]
    by_cases hjanuary : mp = 10
    · refine ⟨⟨Y + 1, 1, day⟩, ⟨le_rfl, Nat.le_add_left 1 11, ?_, ?_⟩, ?_, hd, ?_, rfl⟩
      · change 1 ≤ day
        omega
      · change day ≤ 31
        omega
      · change daysBeforeYear (Y + 1) + (0 : Nat) + day - 1 - 719528 = _
        omega
      · rw [hjanuary]
        rfl
    · refine ⟨⟨Y + 1, 2, day⟩, ⟨Nat.le_add_left 1 1, Nat.le_add_left 2 10, ?_, ?_⟩, ?_, hd, ?_, rfl⟩
      · change 1 ≤ day
        omega
      · change day ≤ if IsLeap (Y + 1) then 29 else 28
        split
        · omega
        · rename_i hleap
          have hshort := hday.resolve_right fun hand => hleap hand.2
          omega
      · change daysBeforeYear (Y + 1) + (31 : Nat) + day - 1 - 719528 = _
        omega
      · change (2 : Int) = mp + -9
        omega

/-! ## Without overflow -/

theorem i64_eq_some {v : Int} (h : -2 ^ 63 ≤ v ∧ v < 2 ^ 63) : i64 v = some v := if_pos h

theorem i64_bind {v w : Int} {α : Type} {f : Int → Option α} {b : α} (hv : v = w)
    (hw : -2 ^ 63 ≤ w ∧ w < 2 ^ 63) (hf : f w = some b) : (i64 v).bind f = some b := by
  rw [hv, i64_eq_some hw, Option.bind_some, hf]

/-- The era of a day, also of one before the year 0, where `/` alone would round up. -/
theorem era_eq {z : Int} :
    (if 0 ≤ z then z else z - 146096).tdiv 146097 = z / 146097 := by
  split
  · rename_i hz
    exact Int.tdiv_eq_ediv_of_nonneg hz
  · rename_i hz
    rw [← Int.neg_neg (z - 146096), Int.neg_tdiv, Int.tdiv_eq_ediv_of_nonneg (by omega)]
    omega

/-- **`civil_from_days` is exact**, for every number of days that milliseconds in 64 bits amount to. -/
theorem civilFromDays_spec {days : Int} (h : -2 ^ 62 ≤ days ∧ days < 2 ^ 62) :
    ∃ date : CivilDate, date.Valid ∧ date.dayNumber = days ∧
      civilFromDays days = some (Int32.ofInt date.year, UInt32.ofInt date.month,
        UInt32.ofInt date.day) := by
  obtain ⟨z, hz⟩ : ∃ z, z = days + 719468 := ⟨_, rfl⟩
  obtain ⟨era, hera⟩ : ∃ era, era = z / 146097 := ⟨_, rfl⟩
  obtain ⟨doe, hdoe⟩ : ∃ doe, doe = z - era * 146097 := ⟨_, rfl⟩
  have hdoeRange : 0 ≤ doe ∧ doe < 146097 := by omega
  obtain ⟨c, k, j, r, heraDay⟩ := exists_eraDay hdoeRange
  obtain ⟨hyoe, hdoy⟩ := heraDay.yearOfEra
  obtain ⟨hc, hk, hj, -, hr, hday⟩ := heraDay
  obtain ⟨yoe, hyoeEq⟩ : ∃ yoe, yoe = 100 * c + 4 * k + j := ⟨_, rfl⟩
  rw [← hyoeEq] at hyoe hdoy
  have hyoeRange : 0 ≤ yoe ∧ yoe ≤ 399 := by omega
  have hleap : r ≤ 364 ∨ r = 365 ∧ IsLeap (yoe + era * 400 + 1) := by
    refine hday.imp_right fun ⟨hr, hj, hkc⟩ => ⟨hr, ?_⟩
    unfold IsLeap
    omega
  obtain ⟨date, hvalid, hnumber, hdateDay, hdateMonth, hdateYear⟩ := date_of_march hr hleap rfl
  refine ⟨date, hvalid, ?_, ?_⟩
  · have hera400 := daysBeforeYear_add_era (yoe + 1) era
    have hfour : (yoe + 1 + 3) / 4 = yoe / 4 + 1 := by omega
    have hcentury : (yoe + 1 + 99) / 100 = yoe / 100 + 1 := by omega
    have hfirst : (yoe + 1 + 399) / 400 = 1 := by omega
    rw [Int.add_right_comm] at hera400
    rw [hnumber, hera400, daysBeforeYear, hfour, hcentury, hfirst]
    clear hyoe hnumber hera400 hdateDay hdateMonth hdateYear hleap hday
    omega
  · have hshift : (if 0 ≤ z then some z else i64 (z - 146096)) =
        some (if 0 ≤ z then z else z - 146096) := by
      split
      · rfl
      · exact i64_eq_some (by omega)
    have hrRange : r ≤ 365 := by omega
    have heraRange : -2 ^ 46 ≤ era ∧ era < 2 ^ 46 := by omega
    have hzRange : -2 ^ 63 ≤ z ∧ z < 2 ^ 63 := by omega
    have hproduct : -2 ^ 63 ≤ era * 146097 ∧ era * 146097 < 2 ^ 63 := by omega
    clear hleap hday hnumber hyoeEq hc hk hj
    -- the operations in the order of the source
    rw [civilFromDays]
    refine i64_bind hz.symm hzRange ?_
    refine Option.bind_eq_some_iff.mpr ⟨_, hshift, ?_⟩
    refine i64_bind (era_eq.trans hera.symm) (by omega) ?_
    refine i64_bind rfl hproduct ?_
    clear hproduct hzRange hera hz h
    refine i64_bind hdoe.symm (by omega) ?_
    rw [Int.tdiv_eq_ediv_of_nonneg hdoeRange.1, Int.tdiv_eq_ediv_of_nonneg hdoeRange.1,
      Int.tdiv_eq_ediv_of_nonneg hdoeRange.1]
    refine i64_bind rfl (by omega) ?_
    refine i64_bind rfl (by omega) ?_
    refine i64_bind rfl (by omega) ?_
    refine i64_bind ((Int.tdiv_eq_ediv_of_nonneg (by omega)).trans hyoe) (by omega) ?_
    refine i64_bind rfl (by omega) ?_
    refine i64_bind rfl (by omega) ?_
    rw [Int.tdiv_eq_ediv_of_nonneg hyoeRange.1, Int.tdiv_eq_ediv_of_nonneg hyoeRange.1]
    refine i64_bind rfl (by omega) ?_
    refine i64_bind rfl (by omega) ?_
    refine i64_bind rfl (by omega) ?_
    refine i64_bind hdoy (by omega) ?_
    refine i64_bind rfl (by omega) ?_
    refine i64_bind rfl (by omega) ?_
    refine i64_bind (Int.tdiv_eq_ediv_of_nonneg (by omega)) (by omega) ?_
    refine i64_bind rfl (by omega) ?_
    refine i64_bind rfl (by omega) ?_
    rw [Int.tdiv_eq_ediv_of_nonneg (by omega)]
    refine i64_bind rfl (by omega) ?_
    refine i64_bind hdateDay.symm (by omega) ?_
    refine i64_bind hdateMonth.symm (by omega) ?_
    rw [← hdateMonth] at hdateYear
    exact i64_bind hdateYear.symm (by omega) rfl

/-! ## The window of a month -/

/-- The 21st of a month. -/
def windowStart (year : Int) (month : Nat) : CivilDate := ⟨year, month, 21⟩

/-- The 22nd of the following month, at which the window is over. -/
def windowEnd (year : Int) (month : Nat) : CivilDate :=
  if month = 12 then ⟨year + 1, 1, 22⟩ else ⟨year, month + 1, 22⟩

/-- What IC10 compares lies in the window of some year. -/
theorem in_window_iff {date : CivilDate} (hvalid : date.Valid) (month : Nat) :
    (date.month = month ∧ 21 ≤ date.day ∨
      date.month = (if month = 12 then 1 else month + 1) ∧ date.day < 22) ↔
      ∃ year, ¬ date.Before (windowStart year month) ∧ date.Before (windowEnd year month) := by
  obtain ⟨hone, hle, hday, -⟩ := hvalid
  unfold CivilDate.Before windowStart windowEnd
  by_cases hdecember : month = 12
  · rw [if_pos hdecember]
    simp only [if_pos hdecember]
    constructor
    · rintro (h | h)
      · exact ⟨date.year, by omega⟩
      · exact ⟨date.year - 1, by omega⟩
    · rintro ⟨year, h⟩
      omega
  · rw [if_neg hdecember]
    simp only [if_neg hdecember]
    constructor
    · intro h
      exact ⟨date.year, by omega⟩
    · rintro ⟨year, h⟩
      omega

theorem toNat_uint32_ofInt {n : Nat} (h : n ≤ 31) : (UInt32.ofInt n).toNat = n := by
  rw [UInt32.ofInt, UInt32.toNat_ofNat']
  omega

/-- The casts of the code cut nothing off a year of these days. -/
theorem year_range {date : CivilDate} (hvalid : date.Valid)
    (h : -2 ^ 37 ≤ date.dayNumber ∧ date.dayNumber < 2 ^ 37) :
    -2 ^ 31 ≤ date.year ∧ date.year < 2 ^ 31 := by
  have hday := hvalid.daysBefore_le.2
  have hone := hvalid.one_le_day
  have hyear := daysBeforeYear_succ date.year
  rw [CivilDate.dayNumber] at h
  unfold daysBeforeYear at h hyear
  omega

/-- **The calendar conversion is exact**, and IC10 picks the birthdays of its window. -/
theorem civil_exact (ts : Int64) :
    ∃ (date : CivilDate) (y : Int32) (m d : UInt32),
      date.Valid ∧ date.dayNumber = ts.toInt / dayMs ∧
      civilFromUnixMs ts = some (y, m, d) ∧
      y.toInt = date.year ∧ m.toNat = date.month ∧ d.toNat = date.day ∧
      ∀ month : UInt32, 1 ≤ month → month ≤ 12 →
        (birthdayInMonthDayRange ts month = some true ↔
          ∃ year, ¬ date.Before (windowStart year month.toNat) ∧
            date.Before (windowEnd year month.toNat)) := by
  have hlow := ts.le_toInt
  have hhigh := ts.toInt_lt
  have hdays : -2 ^ 37 ≤ ts.toInt / dayMs ∧ ts.toInt / dayMs < 2 ^ 37 := by
    rw [dayMs]
    omega
  obtain ⟨date, hvalid, hnumber, hcivil⟩ :=
    @civilFromDays_spec (ts.toInt / dayMs) (by omega)
  have hmonth : (UInt32.ofInt date.month).toNat = date.month :=
    toNat_uint32_ofInt (Nat.le_trans hvalid.month_le (by decide))
  have hday : (UInt32.ofInt date.day).toNat = date.day :=
    toNat_uint32_ofInt (hvalid.day_le.trans (daysInMonth_le _ _))
  have hyearRange := year_range hvalid (hnumber.symm ▸ hdays)
  have hyear : (Int32.ofInt date.year).toInt = date.year :=
    Int32.toInt_ofInt_of_le hyearRange.1 hyearRange.2
  refine ⟨date, _, _, _, hvalid, hnumber, hcivil, hyear, hmonth, hday, fun month hone htwelve => ?_⟩
  have hnext : (if month = 12 then 1 else month + 1 : UInt32).toNat =
      if month.toNat = 12 then 1 else month.toNat + 1 := by
    have htwelve : month.toNat ≤ 12 := UInt32.le_iff_toNat_le.mp htwelve
    have hiff : month = 12 ↔ month.toNat = 12 := UInt32.toNat_inj.symm
    by_cases hdecember : month = 12
    · rw [if_pos hdecember, if_pos (hiff.mp hdecember)]
      rfl
    · rw [if_neg hdecember, if_neg (mt hiff.mpr hdecember), UInt32.toNat_add]
      exact Nat.mod_eq_of_lt (show month.toNat + 1 < 2 ^ 32 by omega)
  have hwindow : civilFromUnixMs ts = _ := hcivil
  rw [← in_window_iff hvalid, birthdayInMonthDayRange, hwindow, Option.bind_eq_bind,
    Option.bind_some, Option.some_inj, Bool.or_eq_true, Bool.and_eq_true, Bool.and_eq_true,
    beq_iff_eq, beq_iff_eq, decide_eq_true_iff, decide_eq_true_iff, ← UInt32.toNat_inj, hmonth,
    ← UInt32.toNat_inj, hmonth, hnext, UInt32.le_iff_toNat_le, UInt32.lt_iff_toNat_lt, hday]
  rfl

example : civilFromUnixMs (-1) = some (1969, 12, 31) := by decide

example : civilFromUnixMs 951782400000 = some (2000, 2, 29) := by decide

end LsmGraph
