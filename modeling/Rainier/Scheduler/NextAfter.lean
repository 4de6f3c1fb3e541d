import Mathlib.Data.Finset.Max
import Rainier.Scheduler.Calendar
import Rainier.Scheduler.CronGrammar

/-! # The next time

The minutes after an instant are tried one after the other, as many as four years of 366 days have.
That is enough for whatever fires on another day than the 29th of February, and for that day unless a
century without one lies ahead.
-/
namespace Rainier.Scheduler

/-- A minute in nanoseconds. -/
def minuteNs : ℤ := 60 * 1000000000

/-- The rounds of the search. -/
def fourYears : ℕ := 4 * 366 * 24 * 60

namespace CronExpression

def search (c : CronExpression) : ℕ → ℤ → Option ℤ
  | 0, _ => none
  | rounds + 1, candidate =>
    if c.matches (.ofSeconds (candidate / 1000000000)) then some candidate else search c rounds (candidate + minuteNs)

/-- The seconds and what is below them are cut off first. -/
def nextAfter (c : CronExpression) (instant : ℤ) : Option ℤ :=
  c.search fourYears (instant / minuteNs * minuteNs + minuteNs)

def Fires (c : CronExpression) (minute : ℤ) : Prop := c.matches (.ofSeconds (60 * minute)) = true

/-- The earliest minute it fires in after an instant's own is found, if there is one. -/
def FindsNext (c : CronExpression) (instant : ℤ) : Prop :=
  (∃ minute, instant / minuteNs < minute ∧ c.Fires minute) →
    ∃ minute, c.nextAfter instant = some (minute * minuteNs) ∧ IsLeast {m | instant / minuteNs < m ∧ c.Fires m} minute

/-- Nothing but the 29th of February. -/
structure LeapDayOnly (c : CronExpression) : Prop where
  weekdays : c.daysOfWeek.wildcard = true
  months : c.months.values = {2}
  twenty_nine : 29 ∈ c.daysOfMonth.values
  late : ∀ day ∈ c.daysOfMonth.values, 29 ≤ day

/-- A minute of a year's 29th of February. -/
def leapMinute (year : ℤ) (hour minute : ℕ) : ℤ := 1440 * dayNumber year 2 29 + 60 * hour + minute

/-- The last leap day before a common century year is over, as far as it fires, and the next one more
than four years away. -/
def BeyondCentury (c : CronExpression) (instant : ℤ) : Prop :=
  ∃ century : ℤ, century % 100 = 0 ∧ century % 400 ≠ 0 ∧ ∀ hour ∈ c.hours.values, ∀ minute ∈ c.minutes.values,
    leapMinute (century - 4) hour minute ≤ instant / minuteNs ∧
      instant / minuteNs + fourYears < leapMinute (century + 4) hour minute

/-! ## The search -/

theorem search_spec (c : CronExpression) (rounds : ℕ) (minute : ℤ) :
    (∃ m, c.search rounds (minute * minuteNs) = some (m * minuteNs) ∧ minute ≤ m ∧ m < minute + rounds ∧ c.Fires m ∧
        ∀ u, minute ≤ u → u < m → ¬c.Fires u) ∨
      c.search rounds (minute * minuteNs) = none ∧ ∀ u, minute ≤ u → u < minute + rounds → ¬c.Fires u := by
  induction rounds generalizing minute with
  | zero => exact .inr ⟨rfl,fun u hle hlt => absurd hlt (by push_cast; omega)⟩
  | succ rounds ih =>
    have hseconds : minute * minuteNs / 1000000000 = 60 * minute := by
      rw [minuteNs]
      omega
    have hnext : minute * minuteNs + minuteNs = (minute + 1) * minuteNs := by
      rw [minuteNs]
      omega
    rw [search,hseconds,hnext]
    by_cases hfires : c.Fires minute
    · rw [Fires] at hfires
      rw [if_pos hfires]
      exact .inl ⟨minute,rfl,le_refl minute,by push_cast; omega,hfires,fun u hle hlt => absurd hlt (by omega)⟩
    · have hmiss := hfires
      rw [Fires] at hmiss
      rw [if_neg hmiss]
      have hbefore : ∀ u, minute ≤ u → ¬minute + 1 ≤ u → ¬c.Fires u := by
        intro u hle hnot
        rw [show u = minute by omega]
        exact hfires
      obtain ⟨m,hsearch,hle,hlt,hm,hearlier⟩ | ⟨hsearch,hnever⟩ := ih (minute + 1)
      · refine .inl ⟨m,hsearch,by omega,by push_cast; omega,hm,fun u hu hum => ?_⟩
        by_cases h : minute + 1 ≤ u
        · exact hearlier u h hum
        · exact hbefore u hu h
      · refine .inr ⟨hsearch,fun u hu hlt => ?_⟩
        by_cases h : minute + 1 ≤ u
        · exact hnever u h (by push_cast at hlt; omega)
        · exact hbefore u hu h

/-- The search finds what there is to be found as soon as something is within its reach. -/
theorem findsNext_iff (c : CronExpression) (instant : ℤ) : c.FindsNext instant ↔
    ((∃ m, instant / minuteNs < m ∧ c.Fires m) → ∃ m, instant / minuteNs < m ∧ m ≤ instant / minuteNs + fourYears ∧ c.Fires m) := by
  have hstart : instant / minuteNs * minuteNs + minuteNs = (instant / minuteNs + 1) * minuteNs := by
    rw [add_mul,one_mul]
  rw [FindsNext,nextAfter,hstart]
  have hspec := c.search_spec fourYears (instant / minuteNs + 1)
  generalize instant / minuteNs = now at hspec ⊢
  constructor
  · intro h hlater
    obtain ⟨m,hfound,hleast⟩ := h hlater
    obtain ⟨m',hsearch,-,hlt,-,-⟩ | ⟨hsearch,-⟩ := hspec
    · have heq : m = m' := by
        have hns := Option.some.inj (hfound.symm.trans hsearch)
        rw [minuteNs] at hns
        omega
      exact ⟨m,hleast.1.1,by omega,hleast.1.2⟩
    · rw [hsearch] at hfound
      cases hfound
  · intro h hlater
    obtain ⟨u,hlt,hle,hu⟩ := h hlater
    obtain ⟨m,hsearch,hle',-,hm,hearlier⟩ | ⟨-,hnever⟩ := hspec
    · refine ⟨m,hsearch,⟨by omega,hm⟩,?_⟩
      rintro v ⟨hv,hfires⟩
      by_contra hless
      exact hearlier v (by omega) (by omega) hfires
    · exact absurd hu (hnever u (by omega) (by omega))

/-! ## Dates it fires on -/

/-- The day and the month are picked. -/
def OnDay (c : CronExpression) (day month weekday : ℕ) : Prop :=
  month ∈ c.months.values ∧
    if c.daysOfMonth.wildcard = true ∨ c.daysOfWeek.wildcard = true then day ∈ c.daysOfMonth.values ∧ weekday ∈ c.daysOfWeek.values
    else day ∈ c.daysOfMonth.values ∨ weekday ∈ c.daysOfWeek.values

theorem matches_iff_onDay (c : CronExpression) (at' : DateTime) : c.matches at' = true ↔
    at'.minute ∈ c.minutes.values ∧ at'.hour ∈ c.hours.values ∧ c.OnDay at'.day at'.month at'.weekday := by
  rw [CronExpression.matches,OnDay]
  simp only [Field.matches,Bool.or_eq_true,Bool.not_eq_true',decide_eq_false_iff_not]
  by_cases hminute : at'.minute ∈ c.minutes.values
  · by_cases hhour : at'.hour ∈ c.hours.values
    · by_cases hmonth : at'.month ∈ c.months.values
      · simp only [hminute,hhour,hmonth,not_true_eq_false,or_false,if_false,true_and]
        split_ifs
        · simp
        · simp
      · simp [hmonth]
    · simp [hhour]
  · simp [hminute]

def weekday (days : ℤ) : ℕ := ((days + 4) % 7).toNat

theorem fires_iff_of_date {c : CronExpression} {year month day : ℤ} (h : IsDate year month day) {hour minute : ℕ}
    (hhour : hour < 24) (hminute : minute < 60) :
    c.Fires (1440 * dayNumber year month day + 60 * hour + minute) ↔ minute ∈ c.minutes.values ∧ hour ∈ c.hours.values ∧
      c.OnDay day.toNat month.toNat (weekday (dayNumber year month day)) := by
  have hdate := civil_dayNumber h
  generalize dayNumber year month day = days at hdate ⊢
  rw [Fires,matches_iff_onDay,DateTime.ofSeconds]
  have hdays : 60 * (1440 * days + 60 * hour + minute) / 86400 = days := by omega
  have hhours : (60 * (1440 * days + 60 * hour + minute) / 3600 % 24).toNat = hour := by omega
  have hminutes : (60 * (1440 * days + 60 * hour + minute) / 60 % 60).toNat = minute := by omega
  rw [hdays,hdate]
  simp only [hhours,hminutes,weekday]

/-- A minute it fires in is one of a date, an hour and a minute that are picked. -/
theorem exists_date_of_fires {c : CronExpression} {m : ℤ} (h : c.Fires m) : ∃ year month day, ∃ hour minute : ℕ,
    IsDate year month day ∧ m = 1440 * dayNumber year month day + 60 * hour + minute ∧ minute ∈ c.minutes.values ∧
      hour ∈ c.hours.values ∧ c.OnDay day.toNat month.toNat (weekday (dayNumber year month day)) := by
  obtain ⟨year,month,day,hdate,hdays⟩ := exists_dayNumber (m / 1440)
  have hsplit : m = 1440 * dayNumber year month day + 60 * (m / 60 % 24).toNat + (m % 60).toNat := by omega
  rw [hsplit,fires_iff_of_date hdate (by omega) (by omega)] at h
  exact ⟨year,month,day,_,_,hdate,hsplit,h⟩

/-! ## What a parsed expression holds -/

/-- The fields are not empty and within their ranges, and a star is all of its range. -/
structure Filled (c : CronExpression) : Prop where
  minutes : c.minutes.values.Nonempty
  minutes_lt : ∀ minute ∈ c.minutes.values, minute < 60
  hours : c.hours.values.Nonempty
  hours_lt : ∀ hour ∈ c.hours.values, hour < 24
  days : ∀ day ∈ c.daysOfMonth.values, 1 ≤ day ∧ day ≤ 31
  all_days : c.daysOfMonth.wildcard = true → ∀ day, 1 ≤ day → day ≤ 31 → day ∈ c.daysOfMonth.values
  months : ∀ month ∈ c.months.values, 1 ≤ month ∧ month ≤ 12
  weekdays : c.daysOfWeek.values.Nonempty
  weekdays_lt : ∀ weekday ∈ c.daysOfWeek.values, weekday < 7
  all_weekdays : c.daysOfWeek.wildcard = true → ∀ weekday < 7, weekday ∈ c.daysOfWeek.values

/-- A field that was accepted. -/
theorem field_of_parse {source text : String} {min max : ℕ} {names : Names} {f : Field}
    (h : parseField source text min max names = .ok f) : f.values.Nonempty ∧ (∀ v ∈ f.values, min ≤ v ∧ v ≤ max) ∧
      (f.wildcard = true → ∀ v, min ≤ v → v ≤ max → v ∈ f.values) := by
  have hkeeps := parseField_keeps h
  refine ⟨?_,?_,?_⟩
  · obtain ⟨values,-,h⟩ := bind_eq_ok.1 h
    split at h
    · cases h
    · next hne =>
      cases h
      exact Finset.nonempty_iff_ne_empty.2 hne
  · intro v hv
    exact hkeeps.range (hkeeps.subset ((hkeeps.values v).1 hv))
  · intro hwild v hmin hmax
    have htext : text = "*" := by simpa [hkeeps.wildcard] using hwild
    subst htext
    refine (hkeeps.values v).2 ⟨.star none,⟨"*",by decide,rfl⟩,v,⟨v - min,?_,hmax⟩,rfl⟩
    simp only [Option.getD_none]
    omega

theorem weekdays_of_parse {source text : String} {f : Field} (h : parseDayOfWeek source text = .ok f) :
    f.values.Nonempty ∧ (∀ v ∈ f.values, v < 7) ∧ (f.wildcard = true → ∀ v < 7, v ∈ f.values) := by
  obtain ⟨parsed,hparsed,h⟩ := bind_eq_ok.1 h
  cases h
  obtain ⟨hne,-,hall⟩ := field_of_parse hparsed
  have hmem : ∀ v ∈ parsed.values, v % 7 ∈ (parsed.values.image (· % 7)).filter (· ≤ 6) := fun v hv =>
    Finset.mem_filter.2 ⟨Finset.mem_image_of_mem _ hv,by omega⟩
  refine ⟨?_,?_,?_⟩
  · obtain ⟨v,hv⟩ := hne
    exact ⟨_,hmem v hv⟩
  · intro v hv
    have hle := (Finset.mem_filter.1 hv).2
    omega
  · intro hwild v hv
    have hself := hmem v (hall hwild v (by omega) (by omega))
    rwa [Nat.mod_eq_of_lt hv] at hself

theorem filled_of_parse {expression : String} {c : CronExpression} (h : CronExpression.parse expression = .ok c) : c.Filled := by
  obtain ⟨source,text,hfields⟩ : ∃ source text, CronExpression.parseFields source text = .ok c := by
    rw [CronExpression.parse] at h
    split at h
    · exact ⟨_,_,h⟩
    · exact ⟨_,_,h⟩
  rw [CronExpression.parseFields] at hfields
  split at hfields
  · obtain ⟨minutes,hminutes,hfields⟩ := bind_eq_ok.1 hfields
    obtain ⟨hours,hhours,hfields⟩ := bind_eq_ok.1 hfields
    obtain ⟨days,hdays,hfields⟩ := bind_eq_ok.1 hfields
    obtain ⟨months,hmonths,hfields⟩ := bind_eq_ok.1 hfields
    obtain ⟨weekdays,hweekdays,hfields⟩ := bind_eq_ok.1 hfields
    cases hfields
    have hminute := field_of_parse hminutes
    have hhour := field_of_parse hhours
    have hday := field_of_parse hdays
    have hmonth := field_of_parse hmonths
    have hweekday := weekdays_of_parse hweekdays
    exact ⟨hminute.1,fun v hv => Nat.lt_succ_of_le (hminute.2.1 v hv).2,hhour.1,fun v hv => Nat.lt_succ_of_le (hhour.2.1 v hv).2,
      hday.2.1,hday.2.2,hmonth.2.1,hweekday.1,hweekday.2.1,hweekday.2.2⟩
  · cases hfields

/-! ## Every year -/

section EveryYear

variable {c : CronExpression} {year month day : ℤ}

theorem onDay_of_weekdays (hfilled : c.Filled) (hwild : c.daysOfWeek.wildcard = true) (d m : ℕ) {w : ℕ} (hw : w < 7) :
    c.OnDay d m w ↔ m ∈ c.months.values ∧ d ∈ c.daysOfMonth.values := by
  rw [OnDay,if_pos (.inr hwild)]
  have hall := hfilled.all_weekdays hwild w hw
  tauto

theorem weekday_lt (days : ℤ) : weekday days < 7 := by
  rw [weekday]
  omega

/-- A date other than the leap day is one of every year. -/
theorem IsDate.of_year (h : IsDate year month day) (hnot : ¬(month = 2 ∧ day = 29)) (year' : ℤ) : IsDate year' month day := by
  obtain ⟨hpos,hle,hday,hlength⟩ := h
  refine ⟨hpos,hle,hday,?_⟩
  rw [monthLength] at hlength ⊢
  split_ifs at hlength ⊢
  all_goals omega

/-- What fires at all fires in every year, but for the leap day. -/
theorem exists_date (hfilled : c.Filled) (hnot : ¬c.LeapDayOnly) (h : IsDate year month day)
    (hday : c.OnDay day.toNat month.toNat (weekday (dayNumber year month day))) (year' : ℤ) :
    ∃ month' day', IsDate year' month' day' ∧ c.OnDay day'.toNat month'.toNat (weekday (dayNumber year' month' day')) := by
  by_cases hwild : c.daysOfWeek.wildcard = true
  · have hpicked := onDay_of_weekdays hfilled hwild
    rw [hpicked _ _ (weekday_lt _)] at hday
    by_cases hleap : month = 2 ∧ day = 29
    · obtain ⟨rfl,rfl⟩ := hleap
      obtain ⟨hmonth,hdays⟩ := hday
      by_cases hother : ∃ m ∈ c.months.values, m ≠ 2
      · obtain ⟨m,hm,hne⟩ := hother
        have hrange := hfilled.months m hm
        refine ⟨m,29,⟨by omega,by omega,by omega,?_⟩,(hpicked _ _ (weekday_lt _)).2 ⟨by simpa using hm,hdays⟩⟩
        rw [monthLength,if_neg (by omega)]
        split_ifs <;> omega
      · have hearly : ∃ d ∈ c.daysOfMonth.values, d < 29 := by
          by_contra hlate
          refine hnot ⟨hwild,?_,hdays,fun d hd => ?_⟩
          · ext m
            rw [Finset.mem_singleton]
            constructor
            · intro hm
              by_contra hne
              exact hother ⟨m,hm,hne⟩
            · rintro rfl
              exact hmonth
          · by_contra hlt
            exact hlate ⟨d,hd,by omega⟩
        obtain ⟨d,hd,hlt⟩ := hearly
        have hrange := hfilled.days d hd
        refine ⟨2,d,⟨by omega,by omega,by omega,?_⟩,(hpicked _ _ (weekday_lt _)).2 ⟨hmonth,by simpa using hd⟩⟩
        rw [monthLength,if_pos rfl]
        split_ifs <;> omega
    · exact ⟨month,day,IsDate.of_year h hleap year',(hpicked _ _ (weekday_lt _)).2 hday⟩
  · obtain ⟨w,hw⟩ := hfilled.weekdays
    have hlt := hfilled.weekdays_lt w hw
    -- one of the first seven days of the month falls on the weekday
    obtain ⟨d,hpos,hle,hfalls⟩ : ∃ d, 1 ≤ d ∧ d ≤ 7 ∧ weekday (dayNumber year' month d) = w := by
      refine ⟨1 + (w - (dayNumber year' month 1 + 4)) % 7,by omega,by omega,?_⟩
      have hshift : dayNumber year' month (1 + (w - (dayNumber year' month 1 + 4)) % 7) =
          dayNumber year' month 1 + (w - (dayNumber year' month 1 + 4)) % 7 := by
        simp only [dayNumber]
        omega
      rw [hshift,weekday]
      omega
    refine ⟨month,d,⟨h.month_pos,h.month_le,hpos,?_⟩,hday.1,?_⟩
    · rw [monthLength]
      split_ifs <;> omega
    · rw [hfalls]
      split_ifs with hstar
      · have hdays := hstar.resolve_right hwild
        exact ⟨hfilled.all_days hdays _ (by omega) (by omega),hw⟩
      · exact .inr hw

/-- What fires on another day than the leap day does so within two years. -/
theorem reach_of_not_leapDayOnly (hfilled : c.Filled) (hnot : ¬c.LeapDayOnly) {m : ℤ} (hm : c.Fires m) (now : ℤ) :
    ∃ m, now < m ∧ m ≤ now + fourYears ∧ c.Fires m := by
  obtain ⟨year,month,day,hour,minute,hdate,-,hminute,hhour,hday⟩ := exists_date_of_fires hm
  obtain ⟨year',month',day',hdate',hdays'⟩ := exists_dayNumber (now / 1440)
  obtain ⟨month'',day'',hdate'',hday''⟩ := exists_date hfilled hnot hdate hday (year' + 1)
  have hlater := hdate''.dayNumber_bounds
  have hnow := hdate'.dayNumber_bounds
  have hstep := marchYear_step year'
  have hstep' := marchYear_step (year' + 1)
  rw [add_sub_cancel_right] at hlater hstep'
  have hminutes := hfilled.minutes_lt minute hminute
  have hhours := hfilled.hours_lt hour hhour
  refine ⟨_,?_,?_,(fires_iff_of_date hdate'' hhours hminutes).2 ⟨hminute,hhour,hday''⟩⟩
  · omega
  · rw [fourYears]
    omega

end EveryYear

/-! ## The leap day -/

section LeapDay

variable {c : CronExpression} {now : ℤ}

theorem isDate_leapDay {year : ℤ} (h : IsLeap year) : IsDate year 2 29 :=
  ⟨by omega,by omega,by omega,by rw [monthLength,if_pos rfl,if_pos h]⟩

/-- Minutes of leap days, and no others. -/
theorem LeapDayOnly.fires_iff (h : c.LeapDayOnly) (hfilled : c.Filled) (m : ℤ) : c.Fires m ↔
    ∃ year, IsLeap year ∧ ∃ hour ∈ c.hours.values, ∃ minute ∈ c.minutes.values, m = leapMinute year hour minute := by
  constructor
  · intro hm
    obtain ⟨year,month,day,hour,minute,hdate,hm,hminute,hhour,hday⟩ := exists_date_of_fires hm
    rw [onDay_of_weekdays hfilled h.weekdays _ _ (weekday_lt _),h.months,Finset.mem_singleton] at hday
    obtain ⟨hmonth,hdays⟩ := hday
    have hlate := h.late _ hdays
    obtain ⟨-,-,-,hlength⟩ := hdate
    obtain rfl : month = 2 := by omega
    rw [monthLength,if_pos rfl] at hlength
    by_cases hleap : IsLeap year
    · rw [if_pos hleap] at hlength
      obtain rfl : day = 29 := by omega
      exact ⟨year,hleap,hour,hhour,minute,hminute,hm⟩
    · rw [if_neg hleap] at hlength
      omega
  · rintro ⟨year,hleap,hour,hhour,minute,hminute,rfl⟩
    refine (fires_iff_of_date (isDate_leapDay hleap) (hfilled.hours_lt hour hhour) (hfilled.minutes_lt minute hminute)).2
      ⟨hminute,hhour,?_⟩
    rw [onDay_of_weekdays hfilled h.weekdays _ _ (weekday_lt _),h.months]
    exact ⟨by simp,h.twenty_nine⟩

theorem leapMinute_eq (year : ℤ) (hour minute : ℕ) :
    leapMinute year hour minute = 1440 * (marchYear (year - 1) - 719103) + 60 * hour + minute := by
  simp only [leapMinute,dayNumber,marchDays]
  norm_num
  omega

/-- Where the next leap day is too far away, nothing is found and something is there. -/
theorem not_findsNext_of_beyondCentury (h : c.LeapDayOnly) (hfilled : c.Filled) {instant : ℤ} (hbeyond : c.BeyondCentury instant) :
    ¬c.FindsNext instant := by
  obtain ⟨century,hhundred,hfourhundred,hbetween⟩ := hbeyond
  obtain ⟨hour,hhour⟩ := hfilled.hours
  obtain ⟨minute,hminute⟩ := hfilled.minutes
  have hnext := hbetween hour hhour minute hminute
  have hleap : IsLeap (century + 4) := ⟨by omega,by omega⟩
  rw [findsNext_iff]
  intro hreach
  obtain ⟨m,hlt,hle,hm⟩ := hreach ⟨_,by omega,(h.fires_iff hfilled _).2 ⟨century + 4,hleap,hour,hhour,minute,hminute,rfl⟩⟩
  obtain ⟨year,⟨hfour,hcommon⟩,hour',hhour',minute',hminute',rfl⟩ := (h.fires_iff hfilled _).1 hm
  have hown := hbetween hour' hhour' minute' hminute'
  have hrange := hfilled.hours_lt hour' hhour'
  have hrange' := hfilled.minutes_lt minute' hminute'
  rw [leapMinute_eq] at hown hlt hle
  rw [leapMinute_eq] at hown
  -- no leap year lies between the two
  by_cases hearly : year ≤ century - 4
  · have hmono := marchYear_mono (show year - 1 ≤ century - 4 - 1 by omega)
    omega
  · have hmono := marchYear_mono (show century + 4 - 1 ≤ year - 1 by omega)
    omega

/-- The years divisible by four on either side of a moment, in leap minutes. -/
theorem exists_cycle (hour minute : ℕ) (hhour : hour < 24) (hminute : minute < 60) (now : ℤ) :
    ∃ k, leapMinute (4 * k) hour minute ≤ now ∧ now < leapMinute (4 * k + 4) hour minute := by
  obtain ⟨year,month,day,hdate,hdays⟩ := exists_dayNumber (now / 1440)
  have hbounds := hdate.dayNumber_bounds
  have hafter := marchYear_mono (show year ≤ 4 * (year / 4) + 3 by omega)
  have hbefore := marchYear_mono (show 4 * (year / 4) - 1 ≤ year - 1 by omega)
  have hstep := marchYear_step (4 * (year / 4) - 1)
  have hcycle := marchYear_mono (show 4 * (year / 4 - 1) - 1 ≤ 4 * (year / 4) - 1 - 1 by omega)
  have hend : now < leapMinute (4 * (year / 4) + 4) hour minute := by
    rw [leapMinute_eq,show 4 * (year / 4) + 4 - 1 = 4 * (year / 4) + 3 by omega]
    omega
  by_cases hown : leapMinute (4 * (year / 4)) hour minute ≤ now
  · exact ⟨year / 4,hown,hend⟩
  · refine ⟨year / 4 - 1,?_,?_⟩
    · rw [leapMinute_eq]
      omega
    · rw [show 4 * (year / 4 - 1) + 4 = 4 * (year / 4) by omega]
      omega

theorem reach_of_not_beyondCentury (h : c.LeapDayOnly) (hfilled : c.Filled) {instant : ℤ} (hnot : ¬c.BeyondCentury instant) :
    ∃ m, instant / minuteNs < m ∧ m ≤ instant / minuteNs + fourYears ∧ c.Fires m := by
  have hlast := Finset.max'_mem _ hfilled.hours
  have hlast' := Finset.max'_mem _ hfilled.minutes
  obtain ⟨k,hbefore,hafter⟩ := exists_cycle _ _ (hfilled.hours_lt _ hlast) (hfilled.minutes_lt _ hlast') (instant / minuteNs)
  have hlength : marchYear (4 * k + 4 - 1) ≤ marchYear (4 * k - 1) + 1464 := by
    simp only [marchYear]
    omega
  have hlonger : marchYear (4 * k + 4 - 1) + 365 ≤ marchYear (4 * k + 4 + 4 - 1) := by
    simp only [marchYear]
    omega
  by_cases hleap : IsLeap (4 * k + 4)
  · refine ⟨_,hafter,?_,(h.fires_iff hfilled _).2 ⟨_,hleap,_,hlast,_,hlast',rfl⟩⟩
    rw [leapMinute_eq] at hbefore ⊢
    rw [fourYears]
    omega
  · have hcommon : (4 * k + 4) % 100 = 0 ∧ (4 * k + 4) % 400 ≠ 0 := by
      rw [IsLeap] at hleap
      omega
    have hclose : ∃ hour ∈ c.hours.values, ∃ minute ∈ c.minutes.values,
        leapMinute (4 * k + 4 + 4) hour minute ≤ instant / minuteNs + fourYears := by
      by_contra hfar
      refine hnot ⟨4 * k + 4,hcommon.1,hcommon.2,fun hour hhour minute hminute => ⟨?_,?_⟩⟩
      · have hle := Finset.le_max' _ hour hhour
        have hle' := Finset.le_max' _ minute hminute
        rw [leapMinute_eq] at hbefore ⊢
        rw [add_sub_cancel_right]
        omega
      · by_contra hnear
        exact hfar ⟨hour,hhour,minute,hminute,not_lt.1 hnear⟩
    obtain ⟨hour,hhour,minute,hminute,hle⟩ := hclose
    have hrange := hfilled.hours_lt _ hlast
    have hrange' := hfilled.minutes_lt _ hlast'
    have hnext : IsLeap (4 * k + 4 + 4) := ⟨by omega,by omega⟩
    refine ⟨_,?_,hle,(h.fires_iff hfilled _).2 ⟨_,hnext,hour,hhour,minute,hminute,rfl⟩⟩
    rw [leapMinute_eq] at hafter ⊢
    omega

end LeapDay

/-- The next time is found, whatever the expression and the instant, unless it is a leap day beyond a
century year that has none. -/
theorem findsNext_iff_near {expression : String} {c : CronExpression} (h : CronExpression.parse expression = .ok c) (instant : ℤ) :
    c.FindsNext instant ↔ ¬(c.LeapDayOnly ∧ c.BeyondCentury instant) := by
  have hfilled := filled_of_parse h
  constructor
  · rintro hfinds ⟨honly,hbeyond⟩
    exact not_findsNext_of_beyondCentury honly hfilled hbeyond hfinds
  · intro hnot
    rw [findsNext_iff]
    rintro ⟨m,-,hm⟩
    by_cases honly : c.LeapDayOnly
    · exact reach_of_not_beyondCentury honly hfilled fun hbeyond => hnot ⟨honly,hbeyond⟩
    · exact reach_of_not_leapDayOnly hfilled honly hm _

theorem findsNext_weekdays : ∃ c, CronExpression.parse "0 9 * * 1-5" = .ok c ∧
    (c.FindsNext 0 ↔ ¬(c.LeapDayOnly ∧ c.BeyondCentury 0)) := by
  have hok : (CronExpression.parse "0 9 * * 1-5").isOk = true := by decide
  cases h : CronExpression.parse "0 9 * * 1-5" with
  | error e =>
    rw [h] at hok
    cases hok
  | ok c => exact ⟨c,rfl,findsNext_iff_near h 0⟩

/-- From March 2096 on, no 29th of February is found, though there is one in 2104. -/
theorem leapDay_not_found : ∃ c, CronExpression.parse "0 0 29 2 *" = .ok c ∧ ¬c.FindsNext (46082 * 86400000000000) := by
  have hok : (CronExpression.parse "0 0 29 2 *").toOption.map (fun c => (c.minutes.values,c.hours.values,c.months.values,
      c.daysOfMonth.values,c.daysOfWeek.wildcard)) = some ({0},{0},{2},{29},true) := by decide
  cases h : CronExpression.parse "0 0 29 2 *" with
  | error e =>
    rw [h] at hok
    cases hok
  | ok c =>
    rw [h] at hok
    obtain ⟨hminutes,hhours,hmonths,hdays,hweekdays⟩ : c.minutes.values = {0} ∧ c.hours.values = {0} ∧ c.months.values = {2} ∧
        c.daysOfMonth.values = {29} ∧ c.daysOfWeek.wildcard = true := by
      simpa [Except.toOption] using hok
    refine ⟨c,rfl,not_findsNext_of_beyondCentury ⟨hweekdays,hmonths,?_,?_⟩ (filled_of_parse h) ⟨2100,by decide,by decide,?_⟩⟩
    · rw [hdays]
      decide
    · rw [hdays]
      decide
    · rw [hhours,hminutes]
      decide

end CronExpression

end Rainier.Scheduler
