import Tinyweb.Lib.Scanf

/-!
# The calendar

`gmtime` gives the date of a number of seconds since the beginning of 1970, `httpDate` is the text that `strftime` makes
of it for HTTP headers.  The days before the year, the month and the day of the date add up to the number of days that
`gmtime` starts from (`gmtime_spec`).
-/

namespace Clib

def isLeap (year : Nat) : Bool := year % 4 = 0 ∧ (year % 100 ≠ 0 ∨ year % 400 = 0)

def yearLength (year : Nat) : Nat := if isLeap year then 366 else 365

def monthLengths (leap : Bool) : List Nat := [31, if leap then 29 else 28, 31, 30, 31, 30, 31, 31, 30, 31, 30, 31]

/-- The year and the day of the year, for a day counted from the beginning of `year`. -/
def yearFrom : Nat → Nat → Nat → Nat × Nat
  | 0, year, day => (year, day)
  | fuel + 1, year, day =>
    if day < yearLength year then (year, day) else yearFrom fuel (year + 1) (day - yearLength year)

/-- The month and the day of the month, counted from 0. -/
def monthFrom : List Nat → Nat → Nat → Nat × Nat
  | [], month, day => (month, day)
  | length :: lengths, month, day => if day < length then (month, day) else monthFrom lengths (month + 1) (day - length)

structure Date where
  year : Nat
  /-- From 0 on. -/
  month : Nat
  /-- From 1 on. -/
  day : Nat
  hour : Nat
  minute : Nat
  second : Nat
  /-- From Sunday on. -/
  weekday : Nat
  deriving DecidableEq, Repr

def gmtime (t : Nat) : Date :=
  let days := t / 86400
  let (year, yday) := yearFrom days 1970 days
  let (month, mday) := monthFrom (monthLengths (isLeap year)) 0 yday
  ⟨year, month, mday + 1, t / 3600 % 24, t / 60 % 60, t % 60, (days + 4) % 7⟩

/-- The leap years up to `year`. -/
def numLeapYears (year : Nat) : Nat := year / 4 - year / 100 + year / 400

/-- The days from the beginning of 1970 to the beginning of `year`. -/
def daysBeforeYear (year : Nat) : Nat := 365 * (year - 1970) + (numLeapYears (year - 1) - numLeapYears 1969)

/-- The days of the year before the month. -/
def daysBeforeMonth (leap : Bool) (month : Nat) : Nat := ((monthLengths leap).take month).sum

/-! ### Dates and days -/

private theorem isLeap_iff (year : Nat) : isLeap year = true ↔ 4 ∣ year ∧ (¬ 100 ∣ year ∨ 400 ∣ year) := by
  simp only [isLeap, decide_eq_true_eq, Nat.dvd_iff_mod_eq_zero, ne_eq]

theorem numLeapYears_succ (year : Nat) :
    numLeapYears (year + 1) = numLeapYears year + if isLeap (year + 1) then 1 else 0 := by
  have hle : year / 100 ≤ year / 4 := by omega
  have hiff := isLeap_iff (year + 1)
  unfold numLeapYears
  rw [Nat.succ_div, Nat.succ_div, Nat.succ_div]
  generalize year / 4 = a, year / 100 = b, year / 400 = c at hle ⊢
  by_cases h4 : 4 ∣ year + 1
  · by_cases h100 : 100 ∣ year + 1
    · by_cases h400 : 400 ∣ year + 1
      · rw [if_pos h4, if_pos h100, if_pos h400, if_pos (hiff.2 ⟨h4, Or.inr h400⟩)]
        omega
      · rw [if_pos h4, if_pos h100, if_neg h400, if_neg (mt hiff.1 fun h => h.2.elim (· h100) h400)]
        omega
    · have h400 : ¬ 400 ∣ year + 1 := fun h => h100 ((by decide : 100 ∣ 400).trans h)
      rw [if_pos h4, if_neg h100, if_neg h400, if_pos (hiff.2 ⟨h4, Or.inl h100⟩)]
      omega
  · have h100 : ¬ 100 ∣ year + 1 := fun h => h4 ((by decide : 4 ∣ 100).trans h)
    have h400 : ¬ 400 ∣ year + 1 := fun h => h4 ((by decide : 4 ∣ 400).trans h)
    rw [if_neg h4, if_neg h100, if_neg h400, if_neg (mt hiff.1 fun h => h4 h.1)]
    omega

theorem numLeapYears_mono {year year' : Nat} (h : year ≤ year') : numLeapYears year ≤ numLeapYears year' := by
  induction h with
  | refl => exact Nat.le_refl _
  | step _ ih =>
    rw [Nat.succ_eq_add_one, numLeapYears_succ]
    omega

theorem daysBeforeYear_succ {year : Nat} (h : 1970 ≤ year) :
    daysBeforeYear (year + 1) = daysBeforeYear year + yearLength year := by
  obtain ⟨z, rfl⟩ : ∃ z, year = z + 1 := ⟨year - 1, by omega⟩
  have hmono := numLeapYears_mono (show 1969 ≤ z by omega)
  unfold daysBeforeYear yearLength
  rw [Nat.add_sub_cancel, Nat.add_sub_cancel, numLeapYears_succ]
  split <;> omega

theorem yearFrom_spec (fuel : Nat) : ∀ year day, 1970 ≤ year → day ≤ fuel →
    ∃ y d, yearFrom fuel year day = (y, d) ∧ year ≤ y ∧ d < yearLength y ∧
      daysBeforeYear y + d = daysBeforeYear year + day := by
  induction fuel with
  | zero =>
    intro year day hyear hday
    refine ⟨year, day, rfl, Nat.le_refl _, ?_, rfl⟩
    unfold yearLength
    split <;> omega
  | succ fuel ih =>
    intro year day hyear hday
    rw [yearFrom]
    split
    next hlt => exact ⟨year, day, rfl, Nat.le_refl _, hlt, rfl⟩
    next hge =>
      have hpos : 0 < yearLength year := by
        unfold yearLength
        split <;> decide
      obtain ⟨y, d, heq, hle, hlt, hsum⟩ := ih (year + 1) (day - yearLength year) (by omega) (by omega)
      refine ⟨y, d, heq, by omega, hlt, ?_⟩
      rw [hsum, daysBeforeYear_succ hyear]
      omega

theorem monthFrom_spec (lengths : List Nat) : ∀ month day, day < lengths.sum →
    ∃ k d, monthFrom lengths month day = (month + k, d) ∧ k < lengths.length ∧ (lengths.take k).sum + d = day ∧
      ∃ length ∈ lengths, d < length := by
  induction lengths with
  | nil =>
    intro month day hday
    cases hday
  | cons length lengths ih =>
    intro month day hday
    rw [List.sum_cons] at hday
    rw [monthFrom]
    split
    next hlt => exact ⟨0, day, rfl, Nat.succ_pos _, by simp, length, List.mem_cons_self, hlt⟩
    next hge =>
      obtain ⟨k, d, heq, hk, hsum, l, hl, hd⟩ := ih (month + 1) (day - length) (by omega)
      refine ⟨k + 1, d, by rw [heq, Nat.add_assoc, Nat.add_comm 1 k], by simpa using hk, ?_, l,
        List.mem_cons_of_mem _ hl, hd⟩
      rw [List.take_succ_cons, List.sum_cons]
      omega

private theorem monthLengths_le (leap : Bool) : ∀ length ∈ monthLengths leap, length ≤ 31 := by cases leap <;> decide

private theorem sum_monthLengths (leap : Bool) : (monthLengths leap).sum = if leap then 366 else 365 := by
  cases leap <;> rfl

/-- The day of the date, counted from the beginning of 1970. -/
theorem gmtime_spec (t : Nat) :
    1970 ≤ (gmtime t).year ∧ (gmtime t).month < 12 ∧ 1 ≤ (gmtime t).day ∧ (gmtime t).day ≤ 31 ∧
      t / 86400 = daysBeforeYear (gmtime t).year + daysBeforeMonth (isLeap (gmtime t).year) (gmtime t).month +
        ((gmtime t).day - 1) := by
  obtain ⟨y, d, hyear, hle, hlt, hdays⟩ := yearFrom_spec (t / 86400) 1970 (t / 86400) (Nat.le_refl _) (Nat.le_refl _)
  have hsum := sum_monthLengths (isLeap y)
  obtain ⟨m, e, hmonth, hm, hrest, length, hlength, he⟩ :=
    monthFrom_spec (monthLengths (isLeap y)) 0 d (by rw [hsum]; exact hlt)
  have hdate : gmtime t = ⟨y, m, e + 1, t / 3600 % 24, t / 60 % 60, t % 60, (t / 86400 + 4) % 7⟩ := by
    rw [gmtime, hyear]
    dsimp only
    rw [hmonth, Nat.zero_add]
  have hle31 := monthLengths_le _ length hlength
  rw [hdate]
  refine ⟨hle, hm, Nat.succ_pos e, by dsimp only; omega, ?_⟩
  have hzero : daysBeforeYear 1970 = 0 := rfl
  dsimp only
  unfold daysBeforeMonth
  omega

/-! ### The text of a date -/

/-- `%02d` -/
def twoDigits (n : Nat) : List UInt8 := [(48 + n / 10).toUInt8, (48 + n % 10).toUInt8]

def monthNames : List (List UInt8) :=
  [ascii ['J', 'a', 'n'], ascii ['F', 'e', 'b'], ascii ['M', 'a', 'r'], ascii ['A', 'p', 'r'], ascii ['M', 'a', 'y'],
    ascii ['J', 'u', 'n'], ascii ['J', 'u', 'l'], ascii ['A', 'u', 'g'], ascii ['S', 'e', 'p'], ascii ['O', 'c', 't'],
    ascii ['N', 'o', 'v'], ascii ['D', 'e', 'c']]

def weekdayNames : List (List UInt8) :=
  [ascii ['S', 'u', 'n'], ascii ['M', 'o', 'n'], ascii ['T', 'u', 'e'], ascii ['W', 'e', 'd'], ascii ['T', 'h', 'u'],
    ascii ['F', 'r', 'i'], ascii ['S', 'a', 't']]

/-- `strftime` with the format `"%a, %d %b %Y %H:%M:%S GMT"`. -/
def httpDate (d : Date) : List UInt8 :=
  weekdayNames.getD d.weekday [] ++ ascii [',', ' '] ++ twoDigits d.day ++ SPACE :: monthNames.getD d.month [] ++
    SPACE :: decimal d.year ++ SPACE :: twoDigits d.hour ++ ascii [':'] ++ twoDigits d.minute ++ ascii [':'] ++
    twoDigits d.second ++ ascii [' ', 'G', 'M', 'T']

end Clib
