import WhileSmt.Cli.Clock
import WhileSmt.Proofs.Text

/-!
The calendar of the clock. Days are turned into dates by a closed formula; the calendar itself says
which date follows which.

Main statements: every day has the date after that of the day before (`Date.ofDays_succ`), and a
reading of the clock is written on one line (`Stamp.text_one_line`).
-/

namespace WhileSmt.Cli

/-! ## The calendar -/

/-- Every fourth year has a leap day, except for those that end a century, unless it is the last of
four centuries. -/
def isLeap (year : Nat) : Bool :=
  year % 4 = 0 && (year % 100 ≠ 0 || year % 400 = 0)

/-- The number of days of a month, in a leap year or not. -/
def daysIn (leap : Bool) (month : Nat) : Nat :=
  if month = 2 then (if leap then 29 else 28)
  else if month = 4 ∨ month = 6 ∨ month = 9 ∨ month = 11 then 30
  else 31

/-- The date after a date. -/
def Date.next (date : Date) : Date :=
  if date.day < daysIn (isLeap date.year) date.month then { date with day := date.day + 1 }
  else if date.month < 12 then { date with month := date.month + 1, day := 1 }
  else { year := date.year + 1, month := 1, day := 1 }

theorem isLeap_iff {year : Nat} :
    isLeap year = true ↔ year % 4 = 0 ∧ (year % 100 ≠ 0 ∨ year % 400 = 0) := by
  simp [isLeap]

/-! ## Years from March to February -/

/-- The days of the year that begins in March. -/
def yearLength (year : Nat) : Nat :=
  if isLeap (year + 1) then 366 else 365

/-- The days of the first years of four centuries. -/
def daysBefore (year : Nat) : Nat :=
  365 * year + year / 4 - year / 100

/-- The year of a day of four centuries. -/
def yearOfEra (day : Nat) : Nat :=
  (day - day / 1460 + day / 36524 - day / 146096) / 365

theorem yearLength_pos (year : Nat) : 0 < yearLength year := by
  unfold yearLength
  split <;> decide

theorem daysBefore_succ {year : Nat} (h : year < 399) :
    daysBefore (year + 1) = daysBefore year + yearLength year := by
  have hleap := @isLeap_iff (year + 1)
  unfold daysBefore yearLength
  split
  · next hyear =>
    rw [hleap] at hyear
    omega
  · next hyear =>
    rw [hleap] at hyear
    omega

theorem yearOfEra_eq {year day : Nat} (hyear : year < 400) (hday : day < yearLength year) :
    yearOfEra (daysBefore year + day) = year := by
  -- centuries, then cycles of four years, then years
  obtain ⟨c, q, r, rfl, hc, hq, hr⟩ :
      ∃ c q r, year = 100 * c + 4 * q + r ∧ c < 4 ∧ q < 25 ∧ r < 4 :=
    ⟨year / 100, year % 100 / 4, year % 4, by omega, by omega, by omega, by omega⟩
  have hbefore : daysBefore (100 * c + 4 * q + r) = 36524 * c + 1461 * q + 365 * r := by
    unfold daysBefore
    omega
  have hleap : day < 365 ∨ day = 365 ∧ r = 3 ∧ (q < 24 ∨ c = 3) := by
    unfold yearLength at hday
    split at hday
    · next h =>
      rw [isLeap_iff] at h
      omega
    · omega
  rw [hbefore, yearOfEra]
  generalize hn : 36524 * c + 1461 * q + 365 * r + day = n
  have hcentury : n / 36524 - n / 146096 = c ∧ n / 146096 ≤ n / 36524 := by
    -- the last day of four centuries would be the first of a fifth one
    have hlast : 1461 * q + 365 * r + day < 36524 ∨ n = 146096 ∧ c = 3 := by omega
    rcases hlast with hlast | ⟨rfl, rfl⟩
    · have hfirst : n / 36524 = c := by omega
      have hzero : n / 146096 = 0 := by omega
      omega
    · decide
  have hcycle : n / 1460 = 25 * c + q + if 1460 ≤ 24 * c + q + 365 * r + day then 1 else 0 := by
    split <;> omega
  split at hcycle <;> omega

/-! ## Months -/

/-- The month of a day of the year that begins in March. -/
def monthOf (day : Nat) : Nat :=
  let fromMarch := (5 * day + 2) / 153
  if fromMarch < 10 then fromMarch + 3 else fromMarch - 9

/-- The day of its month. -/
def dayOf (day : Nat) : Nat :=
  day - (153 * ((5 * day + 2) / 153) + 2) / 5 + 1

/-- The date of a day of the year that begins in March. -/
def Date.ofMarch (year day : Nat) : Date where
  year := if monthOf day ≤ 2 then year + 1 else year
  month := monthOf day
  day := dayOf day

/-- Only the length of February depends on the year, and it is in the next one. -/
theorem daysIn_ofMarch (year day : Nat) :
    daysIn (isLeap (Date.ofMarch year day).year) (monthOf day) =
      daysIn (isLeap (year + 1)) (monthOf day) := by
  unfold Date.ofMarch
  dsimp only
  split
  · rfl
  · have hmonth : monthOf day ≠ 2 := by omega
    simp [daysIn, hmonth]

/-- The day after a day of a year is the next one of its month, or the first one of the next month. -/
def follows (leap : Bool) (day : Nat) : Bool :=
  if dayOf day < daysIn leap (monthOf day) then
    monthOf (day + 1) = monthOf day && dayOf (day + 1) = dayOf day + 1
  else if monthOf day < 12 then
    monthOf (day + 1) = monthOf day + 1 && dayOf (day + 1) = 1 && monthOf day ≠ 2
  else monthOf day = 12 && monthOf (day + 1) = 1 && dayOf (day + 1) = 1

theorem follows_of_lt {leap : Bool} {day : Nat} (h : day + 1 < if leap then 366 else 365) :
    follows leap day = true := by
  have hall : (List.range (if leap then 365 else 364)).all (follows leap) = true := by
    cases leap <;> decide +kernel
  refine List.all_eq_true.mp hall day (List.mem_range.mpr ?_)
  cases leap <;> simp_all <;> omega

namespace Date

theorem next_ofMarch {year day : Nat} (h : day + 1 < yearLength year) :
    (ofMarch year day).next = ofMarch year (day + 1) := by
  have hstep := follows_of_lt h
  have hlength : daysIn (isLeap (ofMarch year day).year) (ofMarch year day).month =
      daysIn (isLeap (year + 1)) (monthOf day) := daysIn_ofMarch year day
  rw [next, hlength]
  unfold follows at hstep
  by_cases hlt : dayOf day < daysIn (isLeap (year + 1)) (monthOf day)
  · simp only [if_pos hlt, Bool.and_eq_true, decide_eq_true_eq] at hstep
    rw [if_pos (show (ofMarch year day).day < _ from hlt)]
    simp [ofMarch, hstep]
  · rw [if_neg (show ¬ (ofMarch year day).day < _ from hlt)]
    by_cases hbefore : monthOf day < 12
    · simp only [if_neg hlt, if_pos hbefore, Bool.and_eq_true, decide_eq_true_eq] at hstep
      rw [if_pos (show (ofMarch year day).month < 12 from hbefore)]
      have hyears : monthOf day + 1 ≤ 2 ↔ monthOf day ≤ 2 := by omega
      simp [ofMarch, hstep, hyears]
    · simp only [if_neg hlt, if_neg hbefore, Bool.and_eq_true, decide_eq_true_eq] at hstep
      rw [if_neg (show ¬ (ofMarch year day).month < 12 from hbefore)]
      simp [ofMarch, hstep]

/-- February ends the year that begins in March. -/
theorem next_ofMarch_last {year day : Nat} (h : day + 1 = yearLength year) :
    (ofMarch year day).next = ofMarch (year + 1) 0 := by
  unfold yearLength at h
  split at h
  · next hleap =>
    obtain rfl : day = 365 := by omega
    simp [next, ofMarch, monthOf, dayOf, daysIn, hleap]
  · next hleap =>
    obtain rfl : day = 364 := by omega
    simp [next, ofMarch, monthOf, dayOf, daysIn, hleap]

/-! ## Days -/

/-- The formula finds the date of a day that is given by its four centuries, its year in them and its
place in the year. -/
theorem ofDays_eq {days era year day : Nat}
    (h : days + 719468 = 146097 * era + (daysBefore year + day)) (hyear : year < 400)
    (hday : day < yearLength year) : ofDays days = ofMarch (400 * era + year) day := by
  have hlt : daysBefore year + day < 146097 := by
    unfold yearLength at hday
    unfold daysBefore
    split at hday
    · next hleap =>
      rw [isLeap_iff] at hleap
      omega
    · omega
  have hmod : (days + 719468) % 146097 = daysBefore year + day := by omega
  have hdiv : (days + 719468) / 146097 = era := by omega
  have hofEra := yearOfEra_eq hyear hday
  have hplace : daysBefore year + day - (365 * year + year / 4 - year / 100) = day := by
    unfold daysBefore
    omega
  unfold yearOfEra at hofEra
  simp only [ofDays, hmod, hdiv, hofEra, hplace, ofMarch, monthOf, dayOf, Nat.mul_comm era 400,
    Nat.add_comm year]
  rfl

/-- Every day is given so. -/
theorem exists_reckoning (n : Nat) : ∃ era year day,
    n = 146097 * era + (daysBefore year + day) ∧ year < 400 ∧ day < yearLength year := by
  induction n with
  | zero => exact ⟨0, 0, 0, rfl, by decide, by decide⟩
  | succ n ih =>
    obtain ⟨era, year, day, rfl, hyear, hday⟩ := ih
    by_cases hmore : day + 1 < yearLength year
    · exact ⟨era, year, day + 1, rfl, hyear, hmore⟩
    · by_cases hlast : year < 399
      · refine ⟨era, year + 1, 0, ?_, by omega, yearLength_pos _⟩
        rw [daysBefore_succ hlast]
        omega
      · obtain rfl : year = 399 := by omega
        refine ⟨era + 1, 0, 0, ?_, by decide, yearLength_pos _⟩
        have hera : daysBefore 399 + yearLength 399 = 146097 := by decide
        have hnone : daysBefore 0 = 0 := rfl
        omega

/-- Four centuries bring back the leap days. -/
theorem yearLength_era (era year : Nat) : yearLength (400 * era + year) = yearLength year := by
  have hleap : isLeap (400 * era + year + 1) = isLeap (year + 1) := by
    rw [Bool.eq_iff_iff, isLeap_iff, isLeap_iff]
    omega
  rw [yearLength, yearLength, hleap]

/-- Every day has the date after that of the day before. -/
theorem ofDays_succ (days : Nat) : ofDays (days + 1) = (ofDays days).next := by
  obtain ⟨era, year, day, h, hyear, hday⟩ := exists_reckoning (days + 719468)
  rw [ofDays_eq h hyear hday]
  by_cases hmore : day + 1 < yearLength year
  · have hnext : days + 1 + 719468 = 146097 * era + (daysBefore year + (day + 1)) := by omega
    rw [ofDays_eq hnext hyear hmore, next_ofMarch]
    rwa [yearLength_era]
  · have hend : day + 1 = yearLength (400 * era + year) := by
      rw [yearLength_era]
      omega
    rw [next_ofMarch_last hend]
    rw [yearLength_era] at hend
    by_cases hlast : year < 399
    · have hbefore := daysBefore_succ hlast
      have hnext : days + 1 + 719468 = 146097 * era + (daysBefore (year + 1) + 0) := by omega
      exact ofDays_eq hnext (by omega) (yearLength_pos _)
    · obtain rfl : year = 399 := by omega
      have hera : daysBefore 399 + yearLength 399 = 146097 := by decide
      have hnext : days + 1 + 719468 = 146097 * (era + 1) + (daysBefore 0 + 0) := by
        have hnone : daysBefore 0 = 0 := rfl
        omega
      rw [ofDays_eq hnext (by decide) (yearLength_pos _), Nat.mul_add]

-- with the first of these, the others are consequences
example : ofDays 0 = ⟨1970, 1, 1⟩ := by decide
example : ofDays 11016 = ⟨2000, 2, 29⟩ := by decide
example : ofDays 11017 = ⟨2000, 3, 1⟩ := by decide
example : ofDays 20453 = ⟨2025, 12, 31⟩ := by decide

end Date

/-! ## Readings of the clock -/

theorem isDigit_of_mem_padded {width n : Nat} {c : Char} (h : c ∈ (padded width n).toList) :
    Text.isDigit c = true := by
  rw [padded, String.toList_append, String.toList_ofList, List.mem_append] at h
  rcases h with h | h
  · rw [List.eq_of_mem_replicate h]
    rfl
  · rw [Text.natural, String.toList_ofList] at h
    exact Text.isDigit_of_mem_digits h

/-- A reading of the clock is written on one line. -/
theorem Stamp.text_one_line (ms : Nat) : '\n' ∉ (Stamp.ofMilliseconds ms).text.toList := by
  have hpadded : ∀ {width n : Nat}, '\n' ∉ (padded width n).toList := fun h =>
    absurd (isDigit_of_mem_padded h) (by decide)
  obtain ⟨year, month, day, hour, minute, second, htext⟩ : ∃ year month day hour minute second,
      (Stamp.ofMilliseconds ms).text =
        padded 4 year ++ "-" ++ padded 2 month ++ "-" ++ padded 2 day ++ " " ++ padded 2 hour ++
          ":" ++ padded 2 minute ++ ":" ++ padded 2 second ++ " UTC" :=
    ⟨_, _, _, _, _, _, rfl⟩
  rw [htext]
  simp [hpadded]

end WhileSmt.Cli
