import Mathlib.Tactic.IntervalCases
import Workboard.Time.Instant

/-!
# Days and their dates

A day within 400 years is split into centuries, spans of four years, years and days.
Main statements: a date is a day of its month, and the day is found again from its date.
-/
namespace Workboard.Instant

/-- Day `doe` of 400 years is day `d` of a year, after so many whole centuries, spans of four
years and years. A year of 366 days ends four years, but not a century except the last. -/
structure IsPlace (doe c q y d : Nat) : Prop where
  sum : doe = 36524 * c + 1461 * q + 365 * y + d
  century : c ≤ 3
  four : q ≤ 24
  year : y ≤ 3
  day : d < 365 ∨ d = 365 ∧ y = 3 ∧ (q < 24 ∨ c = 3)

theorem exists_isPlace {doe : Nat} (h : doe < 146097) : ∃ c q y d, IsPlace doe c q y d := by
  obtain ⟨c, r, hr, hc, hr'⟩ :
      ∃ c r, doe = 36524 * c + r ∧ c ≤ 3 ∧ (r < 36524 ∨ r = 36524 ∧ c = 3) := by
    by_cases hlast : doe = 146096
    · exact ⟨3, 36524, by omega⟩
    · exact ⟨doe / 36524, doe % 36524, by omega⟩
  obtain ⟨y, d, hd, hy, hd'⟩ :
      ∃ y d, r % 1461 = 365 * y + d ∧ y ≤ 3 ∧ (d < 365 ∨ d = 365 ∧ y = 3) := by
    by_cases hlast : r % 1461 = 1460
    · exact ⟨3, 365, by omega⟩
    · exact ⟨r % 1461 / 365, r % 1461 % 365, by omega⟩
  exact ⟨c, r / 1461, y, d, by omega, hc, by omega, hy, by omega⟩

section Place
variable {doe c q y d : Nat}

/-- The year of a day among 400 years. -/
theorem IsPlace.year_eq (h : IsPlace doe c q y d) :
    (doe - doe / 1460 + doe / 36524 - doe / 146096) / 365 = 100 * c + 4 * q + y := by
  obtain ⟨hsum, hc, hq, hy, hd⟩ := h
  by_cases hlast : doe = 146096
  · obtain ⟨rfl, rfl, rfl, rfl⟩ : c = 3 ∧ q = 24 ∧ y = 3 ∧ d = 365 := by omega
    rw [hlast]
  have h₁ : doe / 146096 = 0 := by omega
  have h₂ : doe / 36524 = c := by omega
  -- the estimate is one too high late in four years
  obtain ⟨t, ht, ht'⟩ : ∃ t, doe / 1460 = 25 * c + q + t ∧ (t = 0 ∧ d < 365 ∨ t = 1 ∧ 0 < d) := by
    rcases Nat.lt_or_ge (24 * c + q + 365 * y + d) 1460 with hsmall | hlarge
    · exact ⟨0, by omega, by omega⟩
    · exact ⟨1, by omega, by omega⟩
  rw [h₁, h₂, ht]
  omega

/-- The day of the year. -/
theorem IsPlace.day_eq (h : IsPlace doe c q y d) {yoe : Nat} (hyoe : yoe = 100 * c + 4 * q + y) :
    365 * yoe + yoe / 4 - yoe / 100 + d = doe := by
  obtain ⟨hsum, hc, hq, hy, hd⟩ := h
  omega

end Place

/-- Only a year that is a leap year has 366 days. -/
theorem isLeapYear_of_place {c q y d doe : Nat} (h : IsPlace doe c q y d) (hd : d = 365) (era : Int) :
    isLeapYear ((100 * c + 4 * q + y : Nat) + era * 400 + 1) = true := by
  obtain ⟨-, hc, hq, hy, hday⟩ := h
  unfold isLeapYear
  simp only [Bool.and_eq_true, Bool.or_eq_true, decide_eq_true_eq]
  omega

theorem daysInMonth_le (year : Int) (month : Nat) : daysInMonth year month ≤ 31 := by
  unfold daysInMonth
  split_ifs <;> omega

/-- A date in the calendar. -/
def IsDate (year : Int) (month day : Nat) : Prop :=
  (1 ≤ month ∧ month ≤ 12) ∧ 1 ≤ day ∧ day ≤ daysInMonth year month

/-- The date of a day whose place is known. Months are counted from March. -/
theorem dateOfDay_eq {day era : Int} {doe c q y d : Nat} (h : IsPlace doe c q y d)
    (hday : day = era * 146097 + doe - 719468) :
    dateOfDay day =
      ((100 * c + 4 * q + y : Nat) + era * 400 + (if (5 * d + 2) / 153 < 10 then 0 else 1),
        if (5 * d + 2) / 153 < 10 then (5 * d + 2) / 153 + 3 else (5 * d + 2) / 153 - 9,
        d - (153 * ((5 * d + 2) / 153) + 2) / 5 + 1) := by
  have hlt : doe < 146097 := by
    obtain ⟨hsum, hc, hq, hy, hd⟩ := h
    omega
  have hd : d ≤ 365 := by
    have := h.day
    omega
  have hera : (day + 719468) / 146097 = era := by omega
  have hdoe : ((day + 719468) % 146097).toNat = doe := by omega
  have hrest : doe - (365 * (100 * c + 4 * q + y) + (100 * c + 4 * q + y) / 4 -
      (100 * c + 4 * q + y) / 100) = d := by
    have := h.day_eq rfl
    omega
  unfold dateOfDay
  simp only [hera, hdoe, h.year_eq, hrest]
  by_cases hmonth : (5 * d + 2) / 153 < 10
  · have hbefore : ¬ (5 * d + 2) / 153 + 3 ≤ 2 := by omega
    simp only [if_pos hmonth, if_neg hbefore]
  · have hafter : (5 * d + 2) / 153 - 9 ≤ 2 := by omega
    simp only [if_neg hmonth, if_pos hafter]

/-- The days of the months from March on. -/
theorem daysInMonth_of_march {mp : Nat} (h : mp < 10) (year : Int) :
    daysInMonth year (mp + 3) = (153 * (mp + 1) + 2) / 5 - (153 * mp + 2) / 5 := by
  unfold daysInMonth
  interval_cases mp <;> rfl

/-- The number of a day of a year that begins in March. -/
theorem dayOfDate_eq {year era : Int} {yoe month day mp : Nat} (hyoe : yoe ≤ 399)
    (hmonth : month = mp + 3 ∧ year = yoe + era * 400 ∧ mp < 10 ∨
      month + 9 = mp ∧ 1 ≤ month ∧ year = yoe + era * 400 + 1 ∧ mp ≤ 11) :
    dayOfDate year month day =
      era * 146097 + (yoe * 365 + yoe / 4 - yoe / 100 + ((153 * mp + 2) / 5 + day - 1) : Nat) - 719468 := by
  unfold dayOfDate
  rcases hmonth with ⟨rfl, rfl, hmp⟩ | ⟨rfl, hmonth, rfl, hmp⟩
  · have hera : (yoe + era * 400 : Int) / 400 = era := by omega
    have hrest : ((yoe + era * 400 : Int) % 400).toNat = yoe := by omega
    have h₁ : ¬ mp + 3 ≤ 2 := by omega
    have h₂ : 2 < mp + 3 := by omega
    simp only [if_neg h₁, if_pos h₂, hera, hrest, Nat.add_sub_cancel]
  · have hera : (yoe + era * 400 + 1 - 1 : Int) / 400 = era := by omega
    have hrest : ((yoe + era * 400 + 1 - 1 : Int) % 400).toNat = yoe := by omega
    have h₁ : month ≤ 2 := by omega
    have h₂ : ¬ 2 < month := by omega
    simp only [if_pos h₁, if_neg h₂, hera, hrest]

/-- Every day has a date, and is found again from it. -/
theorem dateOfDay_spec (day : Int) :
    IsDate (dateOfDay day).1 (dateOfDay day).2.1 (dateOfDay day).2.2 ∧
      dayOfDate (dateOfDay day).1 (dateOfDay day).2.1 (dateOfDay day).2.2 = day := by
  obtain ⟨doe, hdoe⟩ : ∃ doe : Nat, ((day + 719468) % 146097).toNat = doe := ⟨_, rfl⟩
  obtain ⟨era, hera⟩ : ∃ era : Int, (day + 719468) / 146097 = era := ⟨_, rfl⟩
  have hday : day = era * 146097 + doe - 719468 := by omega
  obtain ⟨c, q, y, d, hplace⟩ := @exists_isPlace doe (by omega)
  rw [dateOfDay_eq hplace hday]
  have hrest := hplace.day_eq rfl
  have hd : d ≤ 365 := by
    have := hplace.day
    omega
  have hyear : 100 * c + 4 * q + y ≤ 399 := by
    obtain ⟨-, hc, hq, hy, -⟩ := hplace
    omega
  have hleap := isLeapYear_of_place hplace
  obtain ⟨yoe, hyoe⟩ : ∃ yoe, 100 * c + 4 * q + y = yoe := ⟨_, rfl⟩
  obtain ⟨mp, hmp⟩ : ∃ mp, (5 * d + 2) / 153 = mp := ⟨_, rfl⟩
  rw [hyoe] at hrest hyear hleap ⊢
  rw [hmp]
  have hfirst : (153 * mp + 2) / 5 ≤ d := by omega
  by_cases hmonth : mp < 10
  · -- from March to December
    simp only [if_pos hmonth, Int.add_zero]
    refine ⟨⟨⟨by omega, by omega⟩, by omega, ?_⟩, ?_⟩
    · rw [daysInMonth_of_march hmonth]
      omega
    · rw [dayOfDate_eq hyear (.inl ⟨rfl, rfl, hmonth⟩)]
      omega
  · -- January and February belong to the next year
    simp only [if_neg hmonth]
    refine ⟨⟨⟨by omega, by omega⟩, by omega, ?_⟩, ?_⟩
    · rcases (by omega : mp = 10 ∨ mp = 11) with rfl | rfl
      · change _ ≤ 31
        omega
      · change _ ≤ if isLeapYear _ then 29 else 28
        by_cases hlast : d = 365
        · rw [hleap hlast, if_pos rfl]
          omega
        · split <;> omega
    · have hsecond : mp - 9 + 9 = mp ∧ 1 ≤ mp - 9 := by omega
      rw [dayOfDate_eq hyear (.inr ⟨hsecond.1, hsecond.2, rfl, by omega⟩)]
      omega

end Workboard.Instant
