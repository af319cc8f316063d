import Tinyweb.Lib.Calendar
import Tinyweb.HttpRequest

/-!
# Dates in headers (`mongoose.c`)

`gmt_time_string` writes the time of a file into the `Last-Modified` header, `parse_date_string` reads it from
`If-Modified-Since`.  The latter adds the leap day of the current year also to the days before it, so that a date of
January or February of a leap year is read as the next day; all other dates after 1970 are read back, as long as the
seconds fit into an `int` (`parseDateString_gmtTimeString`).
-/

namespace Tinyweb

open Clib

def gmtTimeString (t : Nat) : List UInt8 := httpDate (gmtime t)

def getMonthIndex (s : List UInt8) : Option Nat := monthNames.findIdx? fun name => strcmp s name = 0

def timeFormat : List Directive := [.blank, .number, .literal COLON, .number, .literal COLON, .number]

def dayFormats : List (List Directive) :=
  [[.number, .literal SLASH, .word 3, .literal SLASH, .number],
    [.number, .blank, .word 3, .blank, .number],
    [.skipWord 3, .literal COMMA, .blank, .number, .blank, .word 3, .blank, .number],
    [.number, .literal MINUS, .word 3, .literal MINUS, .number]]

def dateFormats : List (List Directive) := dayFormats.map (· ++ timeFormat)

/-- The days before each month, without a leap day. -/
def monthStarts : List Int := [0, 31, 59, 90, 120, 151, 181, 212, 243, 273, 304, 334]

/-- The seconds for a date as it has been read. -/
def secondsOf (day : Int) (month : Nat) (year hour minute second : Int) : Int :=
  let leapDays := (numLeapYears year.toNat : Int) - numLeapYears 1970
  let days := (year - 1970) * 365 + monthStarts.getD month 0 + (day - 1) + leapDays
  toInt (days * 24 * 3600 + hour * 3600 + minute * 60 + second)

/-- The first format that fits counts. -/
def parseDateString (datetime : List UInt8) : Int :=
  match (dateFormats.map (sscanf · datetime)).find? (·.length = 6) with
  | some values =>
    match values.filterMap Scanned.number?, values.filterMap Scanned.word? with
    | [day, year, hour, minute, second], [month] =>
      match getMonthIndex month with
      | some month =>
        if toInt year > 1970 then
          secondsOf (toInt day) month (toInt year) (toInt hour) (toInt minute) (toInt second)
        else 0
      | none => 0
    | _, _ => 0
  | none => 0

/-! ### Reading a date back -/

section

variable {rest : List UInt8}

private theorem twoDigits_fin : ∀ n : Fin 100, (∀ c ∈ twoDigits n, isdigit c = true) ∧
    digitsValue (twoDigits n) = n := by
  decide +kernel

private theorem scanNumber_twoDigits {n : Nat} (hn : n < 100) (hrest : ∀ c ∈ rest.head?, isdigit c = false) :
    scanNumber (twoDigits n ++ rest) = some ((n : Int), rest) := by
  obtain ⟨hdigits, hvalue⟩ : (∀ c ∈ twoDigits n, isdigit c = true) ∧ digitsValue (twoDigits n) = n :=
    twoDigits_fin ⟨n, hn⟩
  have hne : twoDigits n ≠ [] := List.cons_ne_nil _ _
  rw [scanNumber_digits hne hdigits hrest (by rw [hvalue]; omega), hvalue]

private theorem names_spec : ∀ name ∈ weekdayNames ++ monthNames, name.length = 3 ∧
    name.all (fun c => !isspace c && !isdigit c && c != MINUS && c != PLUS) := by
  decide

private theorem scanWord_name {name : List UInt8} (h : name ∈ weekdayNames ++ monthNames) :
    scanWord 3 (name ++ rest) = some (name, rest) := by
  obtain ⟨hlen, hall⟩ := names_spec name h
  have hword : ∀ c ∈ name, isspace c = false := fun c hc => by
    have := List.all_eq_true.1 hall c hc
    simp only [Bool.and_eq_true, Bool.not_eq_true'] at this
    exact this.1.1.1
  have hdrop : (name ++ rest).dropWhile isspace = name ++ rest := by
    cases name with
    | nil => cases hlen
    | cons c name => exact List.dropWhile_cons_of_neg (by simp [hword c List.mem_cons_self])
  have htake : ((name ++ rest).take 3).takeWhile (!isspace ·) = name := by
    rw [← hlen, List.take_left]
    exact List.takeWhile_eq_self_iff.2 fun c hc => by rw [hword c hc]; rfl
  unfold scanWord
  dsimp only
  rw [hdrop, htake, List.drop_left, if_neg (by rintro rfl; cases hlen)]

private theorem scanNumber_name {name : List UInt8} (h : name ∈ weekdayNames ++ monthNames) :
    scanNumber (name ++ rest) = none := by
  obtain ⟨hlen, hall⟩ := names_spec name h
  cases name with
  | nil => cases hlen
  | cons c name =>
    have hc := List.all_eq_true.1 hall c List.mem_cons_self
    simp only [Bool.and_eq_true, Bool.not_eq_true', bne_iff_ne] at hc
    have hdrop : (c :: name ++ rest).dropWhile isspace = c :: name ++ rest :=
      List.dropWhile_cons_of_neg (by simp [hc.1.1.1])
    have hsign : ¬ ((c :: name ++ rest).headD NUL = MINUS ∨ (c :: name ++ rest).headD NUL = PLUS) :=
      not_or.2 ⟨hc.1.2, hc.2⟩
    have htake : (c :: name ++ rest).takeWhile isdigit = [] := List.takeWhile_cons_of_neg (by simp [hc.1.1.2])
    unfold scanNumber
    dsimp only
    rw [hdrop, if_neg hsign, htake, if_pos rfl]

/-- What stands in a date that `gmtime` has given. -/
private structure Date.Fits (d : Date) : Prop where
  weekday : d.weekday < 7
  month : d.month < 12
  day : d.day < 100
  hour : d.hour < 100
  minute : d.minute < 100
  second : d.second < 100
  year : d.year ≤ 9223372036854775807

private theorem httpDate_eq (d : Date) : httpDate d =
    weekdayNames.getD d.weekday [] ++ COMMA :: SPACE :: (twoDigits d.day ++ SPACE :: (monthNames.getD d.month [] ++
      SPACE :: (decimal d.year ++ SPACE ::
        (twoDigits d.hour ++ COLON :: (twoDigits d.minute ++ COLON :: (twoDigits d.second ++
        SPACE :: ascii ['G', 'M', 'T'])))))) := by
  have hcomma : ascii [',', ' '] = [COMMA, SPACE] := rfl
  have hcolon : ascii [':'] = [COLON] := rfl
  have hgmt : ascii [' ', 'G', 'M', 'T'] = SPACE :: ascii ['G', 'M', 'T'] := rfl
  rw [httpDate, hcomma, hcolon, hgmt]
  simp only [List.append_assoc, List.cons_append, List.nil_append]

private theorem gmtime_fits {t : Nat} (hyear : (gmtime t).year ≤ 9223372036854775807) : Date.Fits (gmtime t) := by
  obtain ⟨-, hmonth, -, hday31, -⟩ := gmtime_spec t
  have hhour : (gmtime t).hour = t / 3600 % 24 := rfl
  have hminute : (gmtime t).minute = t / 60 % 60 := rfl
  have hsecond : (gmtime t).second = t % 60 := rfl
  have hweekday : (gmtime t).weekday = (t / 86400 + 4) % 7 := rfl
  exact ⟨by omega, hmonth, by omega, by omega, by omega, by omega, hyear⟩

private theorem weekdayName_mem {d : Date} (h : Date.Fits d) :
    weekdayNames.getD d.weekday [] ∈ weekdayNames ++ monthNames := by
  rw [List.getD_eq_getElem?_getD, List.getElem?_eq_getElem (show d.weekday < weekdayNames.length from h.weekday)]
  exact List.mem_append_left _ (List.getElem_mem _)

private theorem monthName_mem {d : Date} (h : Date.Fits d) :
    monthNames.getD d.month [] ∈ weekdayNames ++ monthNames := by
  rw [List.getD_eq_getElem?_getD, List.getElem?_eq_getElem (show d.month < monthNames.length from h.month)]
  exact List.mem_append_right _ (List.getElem_mem _)

/-- The third format fits, and the ones before it do not. -/
private theorem sscanf_httpDate {d : Date} (h : Date.Fits d) :
    (dateFormats.map (sscanf · (httpDate d))).find? (·.length = 6) =
      some [.number d.day, .word (monthNames.getD d.month []), .number d.year, .number d.hour, .number d.minute,
        .number d.second] := by
  have hweekday := weekdayName_mem h
  have hmonth := monthName_mem h
  have hspace : ∀ {s : List UInt8}, ∀ c ∈ (SPACE :: s).head?, isdigit c = false := fun c hc => by cases hc; rfl
  have hcolon : ∀ {s : List UInt8}, ∀ c ∈ (COLON :: s).head?, isdigit c = false := fun c hc => by cases hc; rfl
  have hthird : sscanf (.skipWord 3 :: .literal COMMA :: .blank :: .number :: .blank :: .word 3 :: .blank ::
      .number :: timeFormat)
      (httpDate d) = [.number d.day, .word (monthNames.getD d.month []), .number d.year, .number d.hour,
        .number d.minute, .number d.second] := by
    rw [httpDate_eq, sscanf_skipWord (scanWord_name hweekday), sscanf_literal, sscanf_blank_number,
      sscanf_number (scanNumber_twoDigits h.day hspace), sscanf_blank_word, sscanf_word (scanWord_name hmonth),
      sscanf_blank_number, sscanf_number (scanNumber_decimal h.year hspace), timeFormat, sscanf_blank_number,
      sscanf_number (scanNumber_twoDigits h.hour hcolon), sscanf_literal,
      sscanf_number (scanNumber_twoDigits h.minute hcolon), sscanf_literal,
      sscanf_number (scanNumber_twoDigits h.second hspace)]
    rfl
  have hfirst : ∀ format, sscanf (.number :: format) (httpDate d) = [] := fun format => by
    rw [httpDate_eq, sscanf, scanNumber_name hweekday]
  simp only [dateFormats, dayFormats, List.map_cons, List.cons_append, List.nil_append, hfirst, hthird]
  rfl

/-- A time that fits `time_t` makes a line of at most 40 characters. -/
theorem gmtTimeString_line {t : Nat} (ht : t < 9223372036854775808) :
    CR ∉ gmtTimeString t ∧ (gmtTimeString t).length ≤ 40 := by
  have hyear : (gmtime t).year < 10 ^ 15 := by
    obtain ⟨hle, -, -, -, hdays⟩ := gmtime_spec t
    unfold daysBeforeYear at hdays
    omega
  have hfits := gmtime_fits (t := t) (by omega)
  have hname : ∀ name ∈ weekdayNames ++ monthNames, CR ∉ name ∧ name.length = 3 := by decide
  obtain ⟨hweekday, hweekday3⟩ := hname _ (weekdayName_mem hfits)
  obtain ⟨hmonth, hmonth3⟩ := hname _ (monthName_mem hfits)
  have htwo : ∀ {n : Nat}, n < 100 → CR ∉ twoDigits n := fun {n} hn hmem =>
    absurd ((twoDigits_fin ⟨n, hn⟩).1 CR hmem) (by decide)
  have hlength : ∀ n, (twoDigits n).length = 2 := fun _ => rfl
  have hdecimal := length_decimal_le (by decide) hyear
  unfold gmtTimeString
  rw [httpDate_eq]
  constructor
  · simp only [List.mem_append, List.mem_cons, not_or]
    exact ⟨hweekday, by decide, by decide, htwo hfits.day, by decide, hmonth, by decide,
      not_mem_decimal (by decide) _, by decide, htwo hfits.hour, by decide, htwo hfits.minute, by decide,
      htwo hfits.second, by decide, by decide⟩
  · simp only [List.length_append, List.length_cons, hweekday3, hmonth3, hlength, ascii, List.map_cons, List.map_nil,
      List.length_nil]
    omega

end

/-- The error of `parse_date_string`: a day for dates before the leap day of a leap year. -/
def leapError (t : Nat) : Nat := if isLeap (gmtime t).year ∧ (gmtime t).month < 2 then 86400 else 0

private theorem getMonthIndex_fin : ∀ m : Fin 12, getMonthIndex (monthNames.getD m []) = some m.val := by decide

private theorem monthStarts_fin : ∀ m : Fin 12, monthStarts.getD m 0 = daysBeforeMonth false m ∧
    daysBeforeMonth true m = daysBeforeMonth false m + if m.val < 2 then 0 else 1 := by
  decide

/-- The seconds that are computed for the date of `t`. -/
private theorem secondsOf_gmtime {t : Nat} (ht : t + leapError t < 2147483648) :
    secondsOf (gmtime t).day (gmtime t).month (gmtime t).year (gmtime t).hour (gmtime t).minute (gmtime t).second =
      ((t + leapError t : Nat) : Int) := by
  obtain ⟨hyear, hmonth, hday, -, hdays⟩ := gmtime_spec t
  obtain ⟨hstart, hleap⟩ := monthStarts_fin ⟨(gmtime t).month, hmonth⟩
  have hnum := numLeapYears_succ ((gmtime t).year - 1)
  rw [Nat.sub_add_cancel (by omega)] at hnum
  have hbase : numLeapYears 1969 = numLeapYears 1970 := rfl
  have hmono := numLeapYears_mono (show 1969 ≤ (gmtime t).year - 1 by omega)
  have hhour : (gmtime t).hour = t / 3600 % 24 := rfl
  have hminute : (gmtime t).minute = t / 60 % 60 := rfl
  have hsecond : (gmtime t).second = t % 60 := rfl
  have hseconds : t = t / 86400 * 86400 + t / 3600 % 24 * 3600 + t / 60 % 60 * 60 + t % 60 := by omega
  dsimp only at hstart hleap
  rw [← toInt_of_lt ht]
  unfold secondsOf
  dsimp only
  rw [hstart, Int.toNat_natCast, hhour, hminute, hsecond]
  congr 1
  unfold leapError
  unfold daysBeforeYear at hdays
  clear ht hhour hminute hsecond
  generalize t / 86400 = days, t / 3600 % 24 = hour, t / 60 % 60 = minute, t % 60 = second at hseconds hdays ⊢
  cases hl : isLeap (gmtime t).year with
  | false =>
    rw [hl] at hnum hdays
    simp only [Bool.false_eq_true, false_and, if_false] at hnum ⊢
    omega
  | true =>
    rw [hl] at hnum hdays
    simp only [if_true, true_and] at hnum ⊢
    by_cases hearly : (gmtime t).month < 2
    · rw [if_pos hearly] at hleap ⊢
      omega
    · rw [if_neg hearly] at hleap ⊢
      omega

/-- Which dates are read back. -/
theorem parseDateString_gmtTimeString {t : Nat} (hyear : 1970 < (gmtime t).year) (ht : t + leapError t < 2147483648) :
    parseDateString (gmtTimeString t) = ((t + leapError t : Nat) : Int) := by
  obtain ⟨hle, hmonth, hday, hday31, hdays⟩ := gmtime_spec t
  have hyear' : (gmtime t).year < 2147483648 := by
    unfold daysBeforeYear at hdays
    omega
  have hfits : Date.Fits (gmtime t) := gmtime_fits (by omega)
  have hhour := hfits.hour
  have hminute := hfits.minute
  have hsecond := hfits.second
  have hindex : getMonthIndex (monthNames.getD (gmtime t).month []) = some (gmtime t).month :=
    getMonthIndex_fin ⟨_, hmonth⟩
  unfold parseDateString gmtTimeString
  rw [sscanf_httpDate hfits]
  simp only [List.filterMap_cons, List.filterMap_nil, Scanned.number?, Scanned.word?]
  rw [hindex]
  dsimp only
  rw [toInt_of_lt hyear', if_pos (by omega), toInt_of_lt (by omega), toInt_of_lt (by omega), toInt_of_lt (by omega),
    toInt_of_lt (by omega)]
  exact secondsOf_gmtime ht

end Tinyweb
