import Mathlib.Tactic.IntervalCases
import Rainier.Scheduler.Schedule

/-! # Dates

The days of the proleptic Gregorian calendar, numbered from the epoch. Years are taken from March on
here, so that a leap day is the last of its year.
-/
namespace Rainier.Scheduler

def IsLeap (year : ℤ) : Prop := year % 4 = 0 ∧ (year % 100 ≠ 0 ∨ year % 400 = 0)

instance (year : ℤ) : Decidable (IsLeap year) := inferInstanceAs (Decidable (_ ∧ _))

def monthLength (year month : ℤ) : ℤ :=
  if month = 2 then if IsLeap year then 29 else 28
  else if month = 4 ∨ month = 6 ∨ month = 9 ∨ month = 11 then 30 else 31

structure IsDate (year month day : ℤ) : Prop where
  month_pos : 1 ≤ month
  month_le : month ≤ 12
  day_pos : 1 ≤ day
  day_le : day ≤ monthLength year month

/-- The first day of a year that begins in March, counted from the March of the year 0. -/
def marchYear (year : ℤ) : ℤ := 365 * year + year / 4 - year / 100 + year / 400

/-- The days of a year from March before a month. -/
def marchDays (month : ℤ) : ℤ := (153 * (if month ≤ 2 then month + 9 else month - 3) + 2) / 5

/-- The days from the epoch to a date. -/
def dayNumber (year month day : ℤ) : ℤ :=
  marchYear (if month ≤ 2 then year - 1 else year) + marchDays month + day - 1 - 719468

example : dayNumber 1970 1 1 = 0 := by decide

/-- The year of an era: whole centuries, whole cycles of four years, whole years and days. -/
theorem year_of_era {q k j r day : ℤ} (hq : 0 ≤ q ∧ q ≤ 3) (hk : 0 ≤ k ∧ k ≤ 24) (hj : 0 ≤ j ∧ j ≤ 3)
    (hr : 0 ≤ r ∧ r ≤ 365) (hleap : r = 365 → j = 3 ∧ (k = 24 → q = 3)) (hday : day = 36524 * q + 1461 * k + 365 * j + r) :
    (day - day / 1460 + day / 36524 - day / 146096) / 365 = 100 * q + 4 * k + j := by
  by_cases hlast : q = 3 ∧ k = 24 ∧ j = 3 ∧ r = 365
  · obtain ⟨rfl,rfl,rfl,rfl⟩ := hlast
    subst hday
    decide
  have hera : day / 146096 = 0 := by omega
  have hcentury : day / 36524 = q := by omega
  have hcycle : day / 1460 = 25 * q + k ∨ day / 1460 = 25 * q + k + 1 ∧ j = 3 ∧ 268 ≤ r := by omega
  rw [hera,hcentury]
  obtain hcycle | ⟨hcycle,-,-⟩ := hcycle
  · have hshort : r ≠ 365 := by omega
    rw [hcycle]
    omega
  · rw [hcycle]
    omega

/-- A year in its era of 400, its century and its cycle of four. -/
structure Cycles (year e q k j : ℤ) : Prop where
  century : 0 ≤ q ∧ q ≤ 3
  cycle : 0 ≤ k ∧ k ≤ 24
  place : 0 ≤ j ∧ j ≤ 3
  year_eq : year = 400 * e + 100 * q + 4 * k + j

theorem exists_cycles (year : ℤ) : ∃ e q k j, Cycles year e q k j :=
  ⟨year / 400,year % 400 / 100,year % 100 / 4,year % 4,by omega,by omega,by omega,by omega⟩

theorem Cycles.divided {year e q k j : ℤ} (h : Cycles year e q k j) :
    year / 4 = 100 * e + 25 * q + k ∧ year / 100 = 4 * e + q ∧ year / 400 = e ∧ year % 400 = 100 * q + 4 * k + j := by
  obtain ⟨hq,hk,hj,hyear⟩ := h
  refine ⟨?_,?_,?_,?_⟩ <;> omega

/-- A day of a year from March is found in its era. -/
theorem era_of_marchYear (year : ℤ) {r : ℤ} (hr : 0 ≤ r ∧ r ≤ 365) (hleap : r = 365 → IsLeap (year + 1)) {day : ℤ}
    (hday : day = (marchYear year + r) % 146097) :
    (marchYear year + r) / 146097 = year / 400 ∧
      (day - day / 1460 + day / 36524 - day / 146096) / 365 = year % 400 ∧
      day - (365 * (year % 400) + year % 400 / 4 - year % 400 / 100) = r := by
  obtain ⟨e,q,k,j,hcycles⟩ := exists_cycles year
  obtain ⟨hfour,hhundred,hera,hplace⟩ := hcycles.divided
  obtain ⟨hq,hk,hj,hyear⟩ := hcycles
  have hlast : r = 365 → j = 3 ∧ (k = 24 → q = 3) := by
    intro h
    obtain ⟨hfour',hcentury'⟩ := hleap h
    omega
  have hshift : marchYear year + r = 146097 * e + (36524 * q + 1461 * k + 365 * j + r) := by
    rw [marchYear,hfour,hhundred,hera,hyear]
    omega
  have hsplit : day = 36524 * q + 1461 * k + 365 * j + r := by
    rw [hday,hshift]
    omega
  refine ⟨?_,?_,?_⟩
  · rw [hshift,hera]
    omega
  · rw [year_of_era hq hk hj hr hlast hsplit,hplace]
  · rw [hplace,hsplit]
    have hfours : (100 * q + 4 * k + j) / 4 = 25 * q + k := by omega
    have hhundreds : (100 * q + 4 * k + j) / 100 = q := by omega
    rw [hfours,hhundreds]
    omega

variable {year month day : ℤ}

/-- Only a leap day is the 366th of its year. -/
theorem IsDate.marchDays_le (h : IsDate year month day) :
    0 ≤ marchDays month + day - 1 ∧ marchDays month + day - 1 ≤ 365 ∧
      (marchDays month + day - 1 = 365 → month = 2 ∧ IsLeap year) := by
  obtain ⟨hpos,hle,hday,hlength⟩ := h
  rw [monthLength] at hlength
  rw [marchDays]
  by_cases hleap : IsLeap year
  · rw [if_pos hleap] at hlength
    refine ⟨?_,?_,fun hlast => ⟨?_,hleap⟩⟩
    all_goals
      split_ifs at *
      all_goals omega
  · rw [if_neg hleap] at hlength
    refine ⟨?_,?_,fun hlast => absurd hlast ?_⟩
    all_goals
      split_ifs at *
      all_goals omega

theorem IsDate.month_of_marchDays (h : IsDate year month day) :
    (5 * (marchDays month + day - 1) + 2) / 153 = if month ≤ 2 then month + 9 else month - 3 := by
  obtain ⟨hpos,hle,hday,hlength⟩ := h
  have hbound : day ≤ 31 ∧ (month = 2 → day ≤ 29) ∧ (month = 4 ∨ month = 6 ∨ month = 9 ∨ month = 11 → day ≤ 30) := by
    rw [monthLength] at hlength
    split_ifs at hlength
    all_goals omega
  rw [marchDays]
  interval_cases month
  all_goals
    simp only [Int.reduceLE,if_true,if_false,Int.reduceAdd,Int.reduceSub,Int.reduceMul,Int.reduceDiv]
    omega

/-- Dates are found again from their numbers. -/
theorem civil_dayNumber (h : IsDate year month day) : civil (dayNumber year month day) = (year,month,day) := by
  obtain ⟨hpos,hle,hleap⟩ := h.marchDays_le
  set start := if month ≤ 2 then year - 1 else year with hstart
  set r := marchDays month + day - 1 with hr
  have hshift : dayNumber year month day + 719468 = marchYear start + r := by
    rw [dayNumber,← hstart]
    omega
  obtain ⟨hera,hyear,hday⟩ := era_of_marchYear start ⟨hpos,hle⟩ (by
    intro hlast
    obtain ⟨hmonth,hleap⟩ := hleap hlast
    rw [hstart,if_pos (by omega)]
    simpa using hleap) rfl
  have hfound := h.month_of_marchDays
  rw [← hr] at hfound
  obtain ⟨hmonth,hmonth',-,-⟩ := h
  have hshifted : (if month ≤ 2 then month + 9 else month - 3) < 10 ↔ ¬month ≤ 2 := by
    clear hfound hyear hday hera hshift
    split_ifs <;> omega
  have hmonths : (153 * (if month ≤ 2 then month + 9 else month - 3) + 2) / 5 = marchDays month := rfl
  have hyears : start / 400 * 400 + start % 400 = start := by
    clear hfound hyear hday hera hshift
    omega
  have hdays : r - marchDays month + 1 = day := by
    rw [hr]
    omega
  simp only [civil,hshift,hera,hyear,hday,hfound,hshifted,hmonths,hyears,hdays]
  by_cases hearly : month ≤ 2
  · rw [if_pos hearly] at hstart
    simp [hearly,hstart]
  · rw [if_neg hearly] at hstart
    simp [hearly,hstart]

/-- Every day has a date. -/
theorem exists_dayNumber (days : ℤ) : ∃ year month day, IsDate year month day ∧ dayNumber year month day = days := by
  have hfour : ∃ e q k j r, Cycles (400 * e + 100 * q + 4 * k + j) e q k j ∧ 0 ≤ r ∧ r ≤ 365 ∧ (r = 365 → j = 3 ∧ (k = 24 → q = 3)) ∧
      days + 719468 = 146097 * e + (36524 * q + 1461 * k + 365 * j + r) := by
    obtain ⟨e,doe,hdoe,hdays⟩ : ∃ e doe, (0 ≤ doe ∧ doe < 146097) ∧ days + 719468 = 146097 * e + doe :=
      ⟨(days + 719468) / 146097,(days + 719468) % 146097,by omega,by omega⟩
    obtain ⟨q,doc,hq,hdoc⟩ : ∃ q doc, (0 ≤ q ∧ q ≤ 3 ∧ 0 ≤ doc ∧ doc ≤ 36524 ∧ (doc = 36524 → q = 3)) ∧ doe = 36524 * q + doc :=
      ⟨min (doe / 36524) 3,doe - 36524 * min (doe / 36524) 3,by omega,by omega⟩
    obtain ⟨k,dok,hk,hdok⟩ : ∃ k dok, (0 ≤ k ∧ k ≤ 24 ∧ 0 ≤ dok ∧ dok ≤ 1460 ∧ (k = 24 → dok = 1460 → doc = 36524)) ∧ doc = 1461 * k + dok :=
      ⟨doc / 1461,doc % 1461,by omega,by omega⟩
    obtain ⟨j,r,hj,hr⟩ : ∃ j r, (0 ≤ j ∧ j ≤ 3 ∧ 0 ≤ r ∧ r ≤ 365 ∧ (r = 365 → j = 3)) ∧ dok = 365 * j + r :=
      ⟨min (dok / 365) 3,dok - 365 * min (dok / 365) 3,by omega,by omega⟩
    exact ⟨e,q,k,j,r,⟨by omega,by omega,by omega,rfl⟩,by omega,by omega,by omega,by omega⟩
  obtain ⟨e,q,k,j,r,hcycles,hpos,hle,hlast,hdays⟩ := hfour
  obtain ⟨hfours,hhundreds,hera,-⟩ := hcycles.divided
  set start := 400 * e + 100 * q + 4 * k + j with hstart
  have hleap : r = 365 → IsLeap (start + 1) := by
    intro h
    have hplace := hlast h
    have hk := hcycles.cycle
    rw [IsLeap]
    omega
  have hshift : marchYear start + r = days + 719468 := by
    rw [marchYear,hfours,hhundreds,hera]
    omega
  -- the months are counted from March, the last two of them in the next year
  by_cases hlate : 306 ≤ r
  · by_cases hjanuary : r ≤ 336
    · refine ⟨start + 1,1,r - 305,⟨by omega,by omega,by omega,?_⟩,?_⟩
      · simp [monthLength]
        omega
      · simp [dayNumber,marchDays]
        omega
    · refine ⟨start + 1,2,r - 336,⟨by omega,by omega,by omega,?_⟩,?_⟩
      · rw [monthLength,if_pos rfl]
        split_ifs
        · omega
        · next hcommon =>
          have hshort : r ≠ 365 := fun h => hcommon (hleap h)
          omega
      · simp [dayNumber,marchDays]
        omega
  · obtain ⟨m,hm,hm',hstarts,hends⟩ : ∃ m, 3 ≤ m ∧ m ≤ 12 ∧ marchDays m ≤ r ∧ r < marchDays m + monthLength start m := by
      obtain ⟨p,hp⟩ : ∃ p, (5 * r + 2) / 153 = p := ⟨_,rfl⟩
      have hpos' : 0 ≤ p := by omega
      have hle' : p ≤ 9 := by omega
      refine ⟨p + 3,by omega,by omega,?_⟩
      interval_cases p
      all_goals
        simp [marchDays,monthLength]
        omega
    refine ⟨start,m,r - marchDays m + 1,⟨by omega,hm',by omega,by omega⟩,?_⟩
    rw [dayNumber,if_neg (by omega)]
    omega

theorem marchYear_step (year : ℤ) : marchYear (year - 1) + 365 ≤ marchYear year ∧ marchYear year ≤ marchYear (year - 1) + 366 := by
  simp only [marchYear]
  omega

theorem marchYear_mono {year year' : ℤ} (h : year ≤ year') : marchYear year ≤ marchYear year' := by
  simp only [marchYear]
  omega

/-- A date lies between the first January of its year and the next one. -/
theorem IsDate.dayNumber_bounds (h : IsDate year month day) :
    marchYear (year - 1) + 306 ≤ dayNumber year month day + 719468 ∧ dayNumber year month day + 719468 ≤ marchYear year + 305 := by
  have hlast := h.marchDays_le
  have hstep := marchYear_step year
  obtain ⟨hpos,hle,hday,hlength⟩ := h
  rw [dayNumber]
  by_cases hearly : month ≤ 2
  · have hdays : 306 ≤ marchDays month := by
      rw [marchDays,if_pos hearly]
      omega
    rw [if_pos hearly]
    omega
  · have hdays : marchDays month + day - 1 ≤ 305 := by
      rw [monthLength,if_neg (by omega)] at hlength
      rw [marchDays,if_neg hearly]
      split_ifs at hlength
      all_goals omega
    have hzero : 0 ≤ marchDays month := by
      rw [marchDays,if_neg hearly]
      omega
    rw [if_neg hearly]
    omega

end Rainier.Scheduler
