/-
# Dates are counted right

The days of the calendar can be counted one by one: those of each year since 1970,
or before it, then those of each month of the year. The date that is found for a
number of seconds is the one whose count gives the number back.

An era of 400 years that starts in March has its leap days at the ends of years, so
the year of a day in the era is a quotient with corrections. The quotient never falls
from one day to the next, and it is right on the first and the last day of each of
the 400 years (`eraYear_first`, `eraYear_last`), so it is right on every day.

The same steps in words of 64 bits, each of which may fail, never fail.

Key definitions: `Calendar.monthLength`, `Calendar.Civil.dayOfYear`,
`Calendar.Civil.dayNumber`, `Calendar.civilInWords?`.
Key theorems: `Calendar.eraYear_bounds`, `Calendar.date_civil`, `Calendar.civil_exact`.
-/
import Mathlib.Algebra.BigOperators.Group.Finset.Basic
import Mathlib.Tactic.IntervalCases
import Asm6502.Calendar

namespace Asm6502.Calendar

/-! ### Counting days -/

/-- The number of days of a month. -/
def monthLength (leap : Bool) (month : Nat) : Nat :=
  if month = 2 then if leap then 29 else 28
  else if month ∈ [4, 6, 9, 11] then 30
  else 31

/-- The number of days of a year. -/
def yearLength (year : Int) : Int := if isLeap year then 366 else 365

/-- The days from the start of 1970 to the start of a year, negative before 1970. -/
def daysToYear (year : Int) : Int :=
  (∑ k ∈ Finset.range (year - 1970).toNat, yearLength (1970 + k)) -
    ∑ k ∈ Finset.range (1970 - year).toNat, yearLength (1969 - k)

/-- The days from the first of January to a date. -/
def Civil.dayOfYear (t : Civil) : Nat :=
  (∑ k ∈ Finset.range (t.month - 1), monthLength (isLeap t.year) (k + 1)) + (t.day - 1)

/-- The days from the start of 1970 to a date. -/
def Civil.dayNumber (t : Civil) : Int := daysToYear t.year + t.dayOfYear

/-- The seconds from the start of a day to a time. -/
def Civil.timeOfDay (t : Civil) : Nat := t.hour * 3600 + t.minute * 60 + t.second

theorem isLeap_iff (year : Int) : isLeap year = true ↔ (year % 4 = 0 ∧ year % 100 ≠ 0) ∨ year % 400 = 0 := by
  simp [isLeap]

/-- The leap days before a year are counted by quotients. -/
theorem daysToYear_eq (year : Int) :
    daysToYear year = 365 * (year - 1970) + (year - 1) / 4 - (year - 1) / 100 + (year - 1) / 400 - 477 := by
  have hlength (y : Int) : yearLength y = 365 + y / 4 - (y - 1) / 4 - (y / 100 - (y - 1) / 100) +
      (y / 400 - (y - 1) / 400) := by
    unfold yearLength
    split_ifs with h
    · rw [isLeap_iff] at h
      omega
    · rw [isLeap_iff] at h
      omega
  have hafter (n : Nat) : ∑ k ∈ Finset.range n, yearLength (1970 + k) =
      365 * n + (1969 + n : Int) / 4 - (1969 + n : Int) / 100 + (1969 + n : Int) / 400 - 477 := by
    induction n with
    | zero => rfl
    | succ n ih =>
      rw [Finset.sum_range_succ, ih, hlength]
      push_cast
      omega
  have hbefore (n : Nat) : ∑ k ∈ Finset.range n, yearLength (1969 - k) =
      365 * n - ((1969 - n : Int) / 4 - (1969 - n : Int) / 100 + (1969 - n : Int) / 400 - 477) := by
    induction n with
    | zero => rfl
    | succ n ih =>
      rw [Finset.sum_range_succ, ih, hlength]
      push_cast
      omega
  rw [daysToYear, hafter, hbefore]
  omega

/-- The days before a month of a year are those of a table, and the leap day. -/
theorem sum_monthLength {month : Nat} (h : 1 ≤ month) (h' : month ≤ 12) (leap : Bool) :
    ∑ k ∈ Finset.range (month - 1), monthLength leap (k + 1) =
      daysBefore.getD (month - 1) 0 + if leap && month > 2 then 1 else 0 := by
  interval_cases month <;> cases leap <;> rfl

/-! ### Eras -/

/-- The year of an era that a day of the era is in. -/
def eraYear (day : Nat) : Nat := (day - day / 1460 + day / 36524 - day / 146096) / 365

/-- The first day of a year of an era. -/
def eraYearStart (year : Nat) : Nat := 365 * year + year / 4 - year / 100

theorem eraYear_mono {day day' : Nat} (h : day ≤ day') : eraYear day ≤ eraYear day' := by
  induction day', h using Nat.le_induction with
  | base => exact Nat.le_refl _
  | succ day' _ ih =>
    refine ih.trans (Nat.div_le_div_right ?_)
    omega

theorem eraYear_first : ∀ year < 400, eraYear (eraYearStart year) = year := by decide +kernel

theorem eraYear_last : ∀ year < 399, eraYear (eraYearStart (year + 1) - 1) = year := by decide +kernel

/-- A day of an era is in its year. -/
theorem eraYear_bounds {day : Nat} (h : day < 146097) :
    eraYear day < 400 ∧ eraYearStart (eraYear day) ≤ day ∧
      (eraYear day < 399 → day < eraYearStart (eraYear day + 1)) := by
  have hyear : eraYear day < 400 := by
    have hmost : eraYear day ≤ eraYear 146096 := eraYear_mono (by omega)
    exact Nat.lt_of_le_of_lt hmost (by decide)
  refine ⟨hyear, ?_, fun hlast => ?_⟩
  · by_contra hlate
    -- otherwise the day is not after the last day of the year before
    obtain ⟨year, hprevious⟩ : ∃ year, eraYear day = year + 1 := by
      refine Nat.exists_eq_succ_of_ne_zero fun hzero => hlate ?_
      rw [hzero]
      exact Nat.zero_le _
    rw [hprevious] at hlate hyear
    have hmost := eraYear_mono (show day ≤ eraYearStart (year + 1) - 1 by omega)
    rw [eraYear_last year (by omega)] at hmost
    omega
  · by_contra hlate
    have hleast := eraYear_mono (Nat.not_lt.mp hlate)
    rw [eraYear_first _ (by omega)] at hleast
    omega

/-- The first of March comes 59 days after the start of its year, or 60. -/
theorem daysToYear_march (year : Int) :
    daysToYear year + 59 + (if isLeap year then 1 else 0) = 365 * year + year / 4 - year / 100 + year / 400 - 719468 := by
  rw [daysToYear_eq]
  split_ifs with h
  · rw [isLeap_iff] at h
    omega
  · rw [isLeap_iff] at h
    omega

/-- A year that starts in March ends on a leap day only before a leap year. -/
theorem isLeap_of_eraYear (era : Int) {day : Nat} (h : day < 146097) :
    day - eraYearStart (eraYear day) ≤ 365 ∧
      (day - eraYearStart (eraYear day) = 365 → isLeap (eraYear day + era * 400 + 1) = true) := by
  obtain ⟨hyear, hstart, hstop⟩ := eraYear_bounds h
  generalize eraYear day = year at *
  have hfour : (year + era * 400 + 1 : Int) % 4 = ((year + 1) % 4 : Nat) := by omega
  have hhundred : (year + era * 400 + 1 : Int) % 100 = ((year + 1) % 100 : Nat) := by omega
  have hera : (year + era * 400 + 1 : Int) % 400 = ((year + 1) % 400 : Nat) := by omega
  rw [isLeap_iff, hfour, hhundred, hera]
  unfold eraYearStart at *
  simp only [Nat.succ_div, Nat.dvd_iff_mod_eq_zero] at hstop
  split_ifs at hstop <;> omega

/-- The month and the day of a day in a year that starts in March: from March on the
first 59 days of the year come before it, and 306 of the year before are over in
January. -/
theorem march_month : ∀ marchDay < 366,
    let marchMonth := (5 * marchDay + 2) / 153
    let day := marchDay - (153 * marchMonth + 2) / 5 + 1
    let month := if marchMonth < 10 then marchMonth + 3 else marchMonth - 9
    (1 ≤ month ∧ month ≤ 12) ∧ (∀ leap, marchDay < 365 ∨ leap = true → day ≤ monthLength leap month) ∧
      daysBefore.getD (month - 1) 0 + (day - 1) + (if month > 2 then 0 else 306) =
        marchDay + if month > 2 then 59 else 0 := by
  decide +kernel

/-- The date of a day in a year that starts in March. -/
theorem march_date {start year days : Int} {marchDay marchMonth day month : Nat} (hmarch : marchDay ≤ 365)
    (hleap : marchDay = 365 → isLeap (start + 1) = true) (hmarchMonth : marchMonth = (5 * marchDay + 2) / 153)
    (hday : day = marchDay - (153 * marchMonth + 2) / 5 + 1)
    (hmonth : month = if marchMonth < 10 then marchMonth + 3 else marchMonth - 9)
    (hyear : year = start + if month ≤ 2 then 1 else 0)
    (hdays : daysToYear start + 59 + (if isLeap start then 1 else 0) + marchDay = days) :
    (1 ≤ month ∧ month ≤ 12) ∧ day ≤ monthLength (isLeap year) month ∧
      daysToYear year + ((daysBefore.getD (month - 1) 0 + if isLeap year && month > 2 then 1 else 0 : Nat) +
        (day - 1 : Nat)) = days := by
  obtain ⟨hbounds, hlength, hcount⟩ := march_month marchDay (by omega)
  rw [← hmarchMonth, ← hmonth] at hbounds hlength hcount
  rw [← hday] at hlength hcount
  refine ⟨hbounds, ?_, ?_⟩
  · by_cases hfebruary : month = 2
    · rw [if_pos (by omega)] at hyear
      exact hyear ▸ hlength _ ((Nat.lt_or_eq_of_le hmarch).imp_right hleap)
    · have hother (leap : Bool) : monthLength leap month = monthLength true month := by
        rw [monthLength, monthLength, if_neg hfebruary, if_neg hfebruary]
      exact hother _ ▸ hlength true (Or.inr rfl)
  · have hnext : daysToYear (start + 1) = daysToYear start + 59 + (if isLeap start then 1 else 0) + 306 := by
      rw [daysToYear_march, daysToYear_eq]
      omega
    by_cases hlate : month > 2
    · rw [if_neg (by omega), Int.add_zero] at hyear
      simp only [hlate, if_true] at hcount
      simp only [hyear, hlate, decide_true, Bool.and_true]
      split_ifs at hdays ⊢ <;> omega
    · rw [if_pos (by omega)] at hyear
      simp only [hlate, if_false] at hcount
      simp only [hyear, hnext, hlate, decide_false, Bool.and_false, Bool.false_eq_true, if_false]
      split_ifs at hdays ⊢ <;> omega

theorem daysToYear_era (era : Int) {year : Nat} (h : year < 400) :
    daysToYear (year + era * 400) + 59 + (if isLeap (year + era * 400) then 1 else 0) =
      era * 146097 + eraYearStart year - 719468 := by
  rw [daysToYear_march, eraYearStart]
  omega

/-- The date of a number of seconds is a date of the calendar, and the days up to it
are those in the seconds. -/
theorem date_civil {seconds : Int} {t : Civil} (ht : civil seconds = t) :
    (1 ≤ t.month ∧ t.month ≤ 12) ∧ 1 ≤ t.day ∧ t.day ≤ monthLength (isLeap t.year) t.month ∧
      t.yearDay = t.dayOfYear ∧ t.dayNumber = seconds / 86400 := by
  have heraDay : ((seconds / 86400 + 719468) % 146097).toNat < 146097 := by omega
  obtain ⟨hyear, hstart, -⟩ := eraYear_bounds heraDay
  obtain ⟨hmarch, hleap⟩ := isLeap_of_eraYear ((seconds / 86400 + 719468) / 146097) heraDay
  have hone : 1 ≤ t.day := ht ▸ Nat.le_add_left 1 _
  have hyearDay : t.yearDay = daysBefore.getD (t.month - 1) 0 + t.day - 1 +
    if isLeap t.year && t.month > 2 then 1 else 0 := ht ▸ rfl
  have hera := daysToYear_era ((seconds / 86400 + 719468) / 146097) hyear
  have hdate := march_date hmarch hleap rfl rfl rfl rfl (show _ = seconds / 86400 by omega)
  replace hdate : (1 ≤ t.month ∧ t.month ≤ 12) ∧ t.day ≤ monthLength (isLeap t.year) t.month ∧
      daysToYear t.year + ((daysBefore.getD (t.month - 1) 0 + if isLeap t.year && t.month > 2 then 1 else 0 : Nat) +
        (t.day - 1 : Nat)) = seconds / 86400 := by
    subst ht
    exact hdate
  obtain ⟨hmonth, hlength, hcount⟩ := hdate
  have hsum := sum_monthLength hmonth.1 hmonth.2 (isLeap t.year)
  refine ⟨hmonth, hone, hlength, ?_, ?_⟩
  · rw [Civil.dayOfYear, hsum]
    omega
  · rw [Civil.dayNumber, Civil.dayOfYear, hsum]
    push_cast at hcount ⊢
    omega

/-! ### Words of 64 bits -/

/-- A result in a word of 64 bits, none if it does not fit. -/
def word? (n : Int) : Option Int := if -0x8000000000000000 ≤ n ∧ n < 0x8000000000000000 then some n else none

abbrev sum? (a b : Int) : Option Int := word? (a + b)
abbrev difference? (a b : Int) : Option Int := word? (a - b)
abbrev product? (a b : Int) : Option Int := word? (a * b)
/-- Division of words rounds toward zero. -/
abbrev quotient? (a b : Int) : Option Int := word? (a.tdiv b)

/-- The year of an era that a day is in, found in words. -/
def eraYearInWords? (day : Int) : Option Int := do
  let common ← difference? day (← quotient? day 1460)
  quotient? (← difference? (← sum? common (← quotient? day 36524)) (← quotient? day 146096)) 365

/-- The year, month and day of a day of an era, found in words. -/
def dateInWords? (era eraDay : Int) : Option (Int × Int × Int) := do
  let eraYear ← eraYearInWords? eraDay
  let start ← difference? (← sum? (← product? 365 eraYear) (← quotient? eraYear 4)) (← quotient? eraYear 100)
  let marchDay ← difference? eraDay start
  let marchMonth ← quotient? (← sum? (← product? 5 marchDay) 2) 153
  let before ← quotient? (← sum? (← product? 153 marchMonth) 2) 5
  let day ← sum? (← difference? marchDay before) 1
  let month ← word? (if marchMonth < 10 then marchMonth + 3 else marchMonth - 9)
  let year ← sum? (← sum? eraYear (← product? era 400)) (if month ≤ 2 then 1 else 0)
  return (year, month, day)

/-- The entry of the table of days before a month, none if there is none. -/
def entry? (index : Int) : Option Int := if index < 0 then none else daysBefore[index.toNat]?.map Int.ofNat

/-- The days since the first of January, found in words and with a table. -/
def yearDayInWords? (year month day : Int) : Option Int := do
  let leap := year.tmod 4 == 0 && year.tmod 100 != 0 || year.tmod 400 == 0
  let before ← entry? (← difference? month 1)
  sum? (← difference? (← sum? before day) 1) (if leap && month > 2 then 1 else 0)

/-- The date and time of a number of seconds, found in words: none if a result does
not fit, or if an entry is looked for that a table does not have. -/
def civilInWords? (seconds : Int) : Option Civil := do
  let days ← word? (seconds / 86400)
  let time ← word? (seconds % 86400)
  let shifted ← sum? days 719468
  let era ← word? (shifted / 146097)
  let eraDay ← difference? shifted (← product? era 146097)
  let (year, month, day) ← dateInWords? era eraDay
  let yearDay ← yearDayInWords? year month day
  let weekDay ← word? ((← sum? days 4) % 7)
  let hour ← quotient? time 3600
  let minute ← quotient? (time.tmod 3600) 60
  return ⟨year, month.toNat, day.toNat, yearDay.toNat, weekDay.toNat, hour.toNat, minute.toNat, (time.tmod 60).toNat⟩

theorem word?_eq {n : Int} (h : -0x8000000000000000 ≤ n ∧ n < 0x8000000000000000) : word? n = some n := if_pos h

/-- A result that fits, before other steps. -/
theorem bind_word? {α : Type} {n m : Int} {f : Int → Option α} {r : Option α} (hm : n = m)
    (h : -0x8000000000000000 ≤ m ∧ m < 0x8000000000000000) (hf : f m = r) : (word? n >>= f) = r := by
  rw [hm, word?_eq h]
  exact hf

/-- Of what is not negative, the quotient is rounded down. -/
theorem bind_quotient? {α : Type} {a b m : Int} {f : Int → Option α} {r : Option α} (ha : 0 ≤ a) (hm : a / b = m)
    (h : -0x8000000000000000 ≤ m ∧ m < 0x8000000000000000) (hf : f m = r) : (quotient? a b >>= f) = r :=
  bind_word? (by rw [Int.tdiv_eq_ediv_of_nonneg ha, hm]) h hf

theorem eraYearInWords?_eq {day : Nat} (h : day < 146097) : eraYearInWords? day = some (eraYear day : Int) := by
  refine bind_quotient? (by omega) rfl (by omega) (bind_word? rfl (by omega) ?_)
  refine bind_quotient? (by omega) rfl (by omega) (bind_word? rfl (by omega) ?_)
  refine bind_quotient? (by omega) rfl (by omega) (bind_word? rfl (by omega) ?_)
  rw [quotient?, Int.tdiv_eq_ediv_of_nonneg (by omega), word?_eq (by omega), eraYear]
  congr 1
  omega

/-- The steps from the day of an era to a date fit, whatever the era may be. -/
theorem dateInWords?_eq (era : Int) {eraDay marchDay marchMonth day month : Nat} {year : Int}
    (hera : -0x100000000 ≤ era ∧ era < 0x100000000) (h : eraDay < 146097)
    (hmarchDay : marchDay = eraDay - eraYearStart (eraYear eraDay)) (hmarchMonth : marchMonth = (5 * marchDay + 2) / 153)
    (hday : day = marchDay - (153 * marchMonth + 2) / 5 + 1)
    (hmonth : month = if marchMonth < 10 then marchMonth + 3 else marchMonth - 9)
    (hyear : year = eraYear eraDay + era * 400 + if month ≤ 2 then 1 else 0) :
    dateInWords? era eraDay = some (year, (month : Int), (day : Int)) := by
  obtain ⟨hless, hstart, -⟩ := eraYear_bounds h
  have hmarch := (isLeap_of_eraYear 0 h).1
  rw [← hmarchDay] at hmarch
  unfold dateInWords?
  rw [eraYearInWords?_eq h, Option.bind_eq_bind, Option.bind_some]
  unfold eraYearStart at hstart hmarchDay
  generalize eraYear eraDay = eraYear at *
  refine bind_word? rfl (by omega) (bind_quotient? (by omega) rfl (by omega) ?_)
  refine bind_word? rfl (by omega) (bind_quotient? (by omega) rfl (by omega) ?_)
  refine bind_word? rfl (by omega) (bind_word? (m := marchDay) (by omega) (by omega) ?_)
  refine bind_word? rfl (by omega) (bind_word? rfl (by omega) ?_)
  refine bind_quotient? (m := marchMonth) (by omega) (by omega) (by omega) ?_
  refine bind_word? rfl (by omega) (bind_word? rfl (by omega) (bind_quotient? (by omega) rfl (by omega) ?_))
  refine bind_word? rfl (by omega) (bind_word? (m := day) (by omega) (by omega) ?_)
  refine bind_word? (m := month) (by split_ifs at hmonth ⊢ <;> omega) (by split_ifs at hmonth <;> omega) ?_
  exact bind_word? rfl (by omega) (bind_word? rfl (by omega) (bind_word? (m := year) (by omega) (by omega) rfl))

theorem yearDayInWords?_eq {year : Int} {month day : Nat} (hmonth : 1 ≤ month ∧ month ≤ 12) (hday : 1 ≤ day ∧ day ≤ 31) :
    yearDayInWords? year month day = some ((daysBefore.getD (month - 1) 0 + day - 1 +
      if isLeap year && month > 2 then 1 else 0 : Nat) : Int) := by
  have hmod (n : Int) : year.tmod n = 0 ↔ year % n = 0 := by
    rw [← Int.dvd_iff_tmod_eq_zero, Int.dvd_iff_emod_eq_zero]
  have hleap : (year.tmod 4 == 0 && year.tmod 100 != 0 || year.tmod 400 == 0) = isLeap year := by
    rw [Bool.eq_iff_iff, isLeap_iff]
    simp only [Bool.or_eq_true, Bool.and_eq_true, beq_iff_eq, bne_iff_ne, ne_eq, hmod]
  have hentry : entry? (month - 1) = some (daysBefore.getD (month - 1) 0 : Int) := by
    obtain ⟨hfirst, hlast⟩ := hmonth
    interval_cases month <;> rfl
  have hmost : daysBefore.getD (month - 1) 0 ≤ 334 := by
    obtain ⟨hfirst, hlast⟩ := hmonth
    interval_cases month <;> decide
  unfold yearDayInWords?
  rw [hleap]
  refine bind_word? rfl (by omega) ?_
  rw [hentry, Option.bind_eq_bind, Option.bind_some]
  refine bind_word? rfl (by omega) (bind_word? rfl (by omega) ?_)
  have hmonth' : decide ((month : Int) > 2) = decide (month > 2) := by
    rw [decide_eq_decide]
    omega
  rw [hmonth', sum?]
  split_ifs
  · rw [word?_eq (by omega)]
    congr 1
    omega
  · rw [word?_eq (by omega)]
    congr 1
    omega

/-- No step fails in words of 64 bits. -/
theorem civilInWords?_eq {seconds : Int} (h : -0x8000000000000000 ≤ seconds ∧ seconds < 0x8000000000000000) :
    civilInWords? seconds = some (civil seconds) := by
  obtain ⟨hmonth, hone, hlength, hyearDay, -⟩ := date_civil (rfl : civil seconds = _)
  have hmost : (civil seconds).day ≤ 31 := hlength.trans (by unfold monthLength; split_ifs <;> decide)
  have heraDay : ((seconds / 86400 + 719468) % 146097).toNat < 146097 := by omega
  have hdate := dateInWords?_eq ((seconds / 86400 + 719468) / 146097) (by omega) heraDay rfl rfl rfl rfl rfl
  replace hdate : dateInWords? ((seconds / 86400 + 719468) / 146097) ((seconds / 86400 + 719468) % 146097).toNat =
    some ((civil seconds).year, ((civil seconds).month : Int), ((civil seconds).day : Int)) := hdate
  unfold civilInWords?
  refine bind_word? rfl (by omega) (bind_word? rfl (by omega) (bind_word? rfl (by omega) ?_))
  refine bind_word? rfl (by omega) (bind_word? rfl (by omega) ?_)
  refine bind_word? (m := ((seconds / 86400 + 719468) % 146097).toNat) (by omega) (by omega) ?_
  rw [hdate, Option.bind_eq_bind, Option.bind_some]
  dsimp only
  rw [yearDayInWords?_eq hmonth ⟨hone, hmost⟩, Option.bind_eq_bind, Option.bind_some]
  refine bind_word? rfl (by omega) (bind_word? rfl (by omega) ?_)
  refine bind_quotient? (by omega) rfl (by omega) (bind_quotient? ?_ rfl ?_ ?_)
  all_goals rw [Int.tmod_eq_emod_of_nonneg (by omega)]
  · omega
  · omega
  rw [Int.tmod_eq_emod_of_nonneg (by omega)]
  refine congrArg some (Civil.mk.injEq .. ▸ ⟨rfl, rfl, rfl, rfl, rfl, ?_, ?_, ?_⟩)
  · omega
  · omega
  · omega

/-- For every number of seconds in a word of 64 bits, the date is found in words of 64
bits without a step that fails. It is one of the calendar, counting its days and the
time of day gives the seconds back, and the days of year and week are right. -/
theorem civil_exact (seconds : Int64) :
    ∃ t, civilInWords? seconds.toInt = some t ∧ civil seconds.toInt = t ∧
    (1 ≤ t.month ∧ t.month ≤ 12) ∧ (1 ≤ t.day ∧ t.day ≤ monthLength (isLeap t.year) t.month) ∧
    (t.hour < 24 ∧ t.minute < 60 ∧ t.second < 60) ∧
    t.dayNumber * 86400 + t.timeOfDay = seconds.toInt ∧ t.yearDay = t.dayOfYear ∧
    (weekDays[4]? = some "Thursday" ∧ (t.weekDay : Int) = (4 + t.dayNumber) % 7) ∧
    t.weekDay < weekDays.length ∧ t.month - 1 < months.length := by
  have hbounds := And.intro seconds.le_toInt seconds.toInt_lt
  refine ⟨civil seconds.toInt, civilInWords?_eq hbounds, rfl, ?_⟩
  obtain ⟨hmonth, hone, hlength, hyearDay, hdays⟩ := date_civil (rfl : civil seconds.toInt = _)
  have htime : (civil seconds.toInt).hour = (seconds.toInt % 86400).toNat / 3600 ∧
    (civil seconds.toInt).minute = (seconds.toInt % 86400).toNat % 3600 / 60 ∧
    (civil seconds.toInt).second = (seconds.toInt % 86400).toNat % 60 := ⟨rfl, rfl, rfl⟩
  have hweek : (civil seconds.toInt).weekDay = ((seconds.toInt / 86400 + 4) % 7).toNat := rfl
  generalize civil seconds.toInt = t at *
  refine ⟨hmonth, ⟨hone, hlength⟩, by omega, ?_, hyearDay, ⟨rfl, ?_⟩, ?_, ?_⟩
  · rw [hdays, Civil.timeOfDay]
    omega
  · rw [hdays]
    omega
  · exact hweek ▸ (by omega : ((seconds.toInt / 86400 + 4) % 7).toNat < 7)
  · exact (by omega : t.month - 1 < 12)

end Asm6502.Calendar
