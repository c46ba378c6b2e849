import CodingHarness.Support.JsonGrammar
import Mathlib.Tactic.IntervalCases

/-!
# Timestamps of session entries

`EntrySerializer.cpp`: an entry's timestamp is milliseconds since 1970 in memory and an ISO-8601 text in UTC
in the file. Both directions count days in eras of 400 years that start on the first of March. The reader
does not check that a month or a day exists, so a text that names no date is read as a later one.
-/

namespace CodingHarness.Agent

open Library.Double Support

/-! ## The source -/

/-- `std::setw` with the fill character `0`. -/
def zeroPadded (width : Nat) (text : Bytes) : Bytes := List.replicate (width - text.length) 0x30 ++ text

def streamed (n : Int) : Bytes := (if n < 0 then [0x2D] else []) ++ digitBytes (digitsOf n.natAbs)

/-- The text of a date and a time of day. -/
def isoText (year month day hour minute second millis : Int) : Bytes :=
  zeroPadded 4 (streamed year) ++ 0x2D :: (zeroPadded 2 (streamed month) ++ 0x2D :: (zeroPadded 2 (streamed day) ++
    0x54 :: (zeroPadded 2 (streamed hour) ++ 0x3A :: (zeroPadded 2 (streamed minute) ++
      0x3A :: (zeroPadded 2 (streamed second) ++ 0x2E :: (zeroPadded 3 (streamed millis) ++ [0x5A]))))))

/-- `yoe` of `format_iso_timestamp_ms`. -/
def yearOfEra (doe : Nat) : Nat := (doe - doe / 1460 + doe / 36524 - doe / 146096) / 365

/-- The days of an era before one of its years. -/
def yearStart (yoe : Nat) : Nat := 365 * yoe + yoe / 4 - yoe / 100

/-- The year, the month and the day of `format_iso_timestamp_ms`. -/
def civilFromDays (days : Int) : Int × Nat × Nat := let z := days + 719468
  let era := (if 0 ≤ z then z else z - 146096).tdiv 146097
  let doe := (z - era * 146097).toNat
  let yoe := yearOfEra doe
  let doy := doe - yearStart yoe
  let mp := (5 * doy + 2) / 153
  let month := if mp < 10 then mp + 3 else mp - 9
  (yoe + era * 400 + if month ≤ 2 then 1 else 0, month, doy - (153 * mp + 2) / 5 + 1)

def formatIsoTimestampMs (ms : Int) : Bytes := let days := (if 0 ≤ ms then ms else ms - 86399999).tdiv 86400000
  let dayMs := ms - days * 86400000
  let date := civilFromDays days
  isoText date.1 date.2.1 date.2.2 (dayMs / 3600000) (dayMs / 60000 % 60) (dayMs / 1000 % 60) (dayMs % 1000)

def parseFixedInt (text : Bytes) (offset count : Nat) : Option Nat := if text.length < offset + count then none
  else ((text.drop offset).take count).foldlM
    (fun value c => if isDigit c then some (value * 10 + (c.toNat - 0x30)) else none) 0

/-- `days_from_civil`; the days of the year and of the era are `unsigned`. -/
def daysFromCivil (year : Int) (month day : Nat) : Int := let year := year - if month ≤ 2 then 1 else 0
  let era := (if 0 ≤ year then year else year - 399).tdiv 400
  let yoe := (year - era * 400).toNat
  let doy := ((153 * (if 2 < month then month - 3 else month + 9) + 2) / 5 + day + (2 ^ 32 - 1)) % 2 ^ 32
  era * 146097 + ((yearStart yoe + doy) % 2 ^ 32 : Nat) - 719468

/-- The digits of a fraction: the first three are milliseconds. -/
def readMillis : Bytes → (digits scale millis : Nat) → Nat × Bytes
  | [], _, _, millis => (millis, [])
  | c :: rest, digits, scale, millis =>
    if isDigit c then
      if digits < 3 then readMillis rest (digits + 1) (scale / 10) (millis + (c.toNat - 0x30) * scale)
      else readMillis rest digits scale millis
    else (millis, c :: rest)

/-- `parse_iso_timestamp_ms`; a text that is not accepted gives 0. -/
def parseIsoTimestampMs (text : Bytes) : Int := if text.length < 20 ∨ text[4]? ≠ some 0x2D ∨ text[7]? ≠ some 0x2D ∨
      (text[10]? ≠ some 0x54 ∧ text[10]? ≠ some 0x20) ∨ text[13]? ≠ some 0x3A ∨ text[16]? ≠ some 0x3A then 0
  else
    match parseFixedInt text 0 4, parseFixedInt text 5 2, parseFixedInt text 8 2, parseFixedInt text 11 2,
        parseFixedInt text 14 2, parseFixedInt text 17 2 with
    | some year, some month, some day, some hour, some minute, some second =>
      let zone := if text[19]? = some 0x2E then readMillis (text.drop 20) 0 100 0 else (0, text.drop 19)
      if zone.2.head? ≠ some 0x5A then 0
      else (((daysFromCivil year month day * 24 + hour) * 60 + minute) * 60 + second) * 1000 + zone.1
    | _, _, _, _, _, _ => 0

/-! ## Days and dates -/

/-- The truncating division of the source, with its correction for negative numbers, rounds down. -/
theorem tdiv_floor (a : Int) {d : Int} (h : 0 < d) : (if 0 ≤ a then a else a - (d - 1)).tdiv d = a / d := by
  split
  · next ha => exact Int.tdiv_eq_ediv_of_nonneg ha
  next ha =>
  obtain ⟨m, rfl⟩ : ∃ m : Nat, a = -(m + 1) := ⟨(-a - 1).toNat, by omega⟩
  have hneg : -((m : Int) + 1) - (d - 1) = -(m + 1 * d) := by omega
  rw [hneg, Int.neg_tdiv, Int.tdiv_eq_ediv_of_nonneg (by omega), Int.add_mul_ediv_right _ _ h.ne',
    ← Int.negSucc_eq, Int.negSucc_ediv _ h]
  rfl

theorem yearOfEra_spec {doe : Nat} (h : doe < 146097) : yearOfEra doe ≤ 399 ∧ yearStart (yearOfEra doe) ≤ doe ∧
    (yearOfEra doe < 399 → doe < yearStart (yearOfEra doe + 1)) := by
  obtain rfl | hlast : doe = 146096 ∨ doe < 146096 := by omega
  · decide
  obtain ⟨yoe, hyoe⟩ : ∃ yoe, yoe = yearOfEra doe := ⟨_, rfl⟩
  rw [← hyoe]
  rw [yearOfEra, Nat.div_eq_of_lt hlast] at hyoe
  unfold yearStart
  have hcentury : doe / 36524 ≤ 3 := by omega
  have hquarter : doe / 1460 ≤ (yoe + 1) / 4 := by omega
  generalize hq : doe / 36524 = century at *
  have hhundred : yoe / 100 = century := by interval_cases century <;> omega
  refine ⟨by omega, by interval_cases century <;> omega, fun _ => ?_⟩
  obtain hnext | hnext : (yoe + 1) / 100 = century ∨ yoe + 1 = 100 * (century + 1) := by omega
  · omega
  · omega

theorem yearStart_mono : Monotone yearStart := monotone_nat_of_le_succ fun n => by
    unfold yearStart
    omega

theorem yearOfEra_eq {doe yoe : Nat} (h : doe < 146097) (hyoe : yoe ≤ 399) (hstart : yearStart yoe ≤ doe)
    (hnext : yoe < 399 → doe < yearStart (yoe + 1)) : yearOfEra doe = yoe := by
  obtain ⟨hlast, hlower, hupper⟩ := yearOfEra_spec h
  obtain hlt | heq | hgt := Nat.lt_trichotomy (yearOfEra doe) yoe
  · have hmono : yearStart (yearOfEra doe + 1) ≤ yearStart yoe := yearStart_mono hlt
    omega
  · exact heq
  · have hmono : yearStart (yoe + 1) ≤ yearStart (yearOfEra doe) := yearStart_mono hgt
    omega

/-- The month that is `mp` months after March. -/
def monthAfterMarch (mp : Nat) : Nat := if mp < 10 then mp + 3 else mp - 9

def monthStart (mp : Nat) : Nat := (153 * mp + 2) / 5

/-- A day of an era, by its year and its day of that year. -/
def eraDay (era : Int) (yoe doy : Nat) : Int := era * 146097 + (yearStart yoe + doy : Nat) - 719468

/-- The day of the year is one of the year's. -/
def InYear (yoe doy : Nat) : Prop := yoe ≤ 399 ∧ yearStart yoe + doy < 146097 ∧
  (yoe < 399 → yearStart yoe + doy < yearStart (yoe + 1))

theorem exists_eraDay (days : Int) : ∃ era yoe doy, InYear yoe doy ∧ days = eraDay era yoe doy := by
  have hnonneg := Int.emod_nonneg (days + 719468) (by decide : (146097 : Int) ≠ 0)
  obtain ⟨doe, hdoe⟩ := Int.eq_ofNat_of_zero_le hnonneg
  have hlt : doe < 146097 := by omega
  obtain ⟨hyoe, hlower, hupper⟩ := yearOfEra_spec hlt
  refine ⟨(days + 719468) / 146097, yearOfEra doe, doe - yearStart (yearOfEra doe), ⟨hyoe, ?_, ?_⟩, ?_⟩
  · omega
  · intro hyoe
    have hnext := hupper hyoe
    omega
  · rw [eraDay]
    omega

theorem civilFromDays_eraDay (era : Int) {yoe doy : Nat} (h : InYear yoe doy) : civilFromDays (eraDay era yoe doy) =
      (yoe + era * 400 + if monthAfterMarch ((5 * doy + 2) / 153) ≤ 2 then 1 else 0,
        monthAfterMarch ((5 * doy + 2) / 153), doy - monthStart ((5 * doy + 2) / 153) + 1) := by
  obtain ⟨hyoe, hera, hyear⟩ := h
  have hday : eraDay era yoe doy + 719468 = era * 146097 + (yearStart yoe + doy : Nat) := by
    rw [eraDay]
    omega
  have hquotient : (era * 146097 + (yearStart yoe + doy : Nat)) / 146097 = era := by omega
  have hdoe : (era * 146097 + (yearStart yoe + doy : Nat) - era * 146097).toNat = yearStart yoe + doy := by omega
  have hfloor := tdiv_floor (era * 146097 + (yearStart yoe + doy : Nat)) (by decide : (0 : Int) < 146097)
  rw [hquotient] at hfloor
  simp only [civilFromDays, hday]
  rw [show (146096 : Int) = 146097 - 1 by rfl, hfloor, hdoe, yearOfEra_eq hera hyoe (Nat.le_add_right _ _) hyear,
    Nat.add_sub_cancel_left]
  rfl

theorem daysFromCivil_eraDay (era : Int) {yoe mp day : Nat} (hyoe : yoe ≤ 399) (hmp : mp ≤ 11) (hday : 1 ≤ day)
    (hlast : day ≤ 31) :
    daysFromCivil (yoe + era * 400 + if monthAfterMarch mp ≤ 2 then 1 else 0) (monthAfterMarch mp) day =
      eraDay era yoe (monthStart mp + day - 1) := by
  have hback : (if 2 < monthAfterMarch mp then monthAfterMarch mp - 3 else monthAfterMarch mp + 9) = mp := by
    rw [monthAfterMarch]
    split <;> split <;> omega
  have hstart : yearStart yoe ≤ 146097 := (yearStart_mono hyoe).trans (by decide)
  have hmonth : monthStart mp ≤ 337 := by
    rw [monthStart]
    omega
  have hfloor := tdiv_floor (yoe + era * 400) (by decide : (0 : Int) < 400)
  rw [show (yoe + era * 400) / 400 = era by omega] at hfloor
  simp only [daysFromCivil, hback, Int.add_sub_cancel]
  rw [show (399 : Int) = 400 - 1 by rfl, hfloor, Int.add_sub_cancel, Int.toNat_natCast, eraDay]
  rw [monthStart] at *
  omega

/-- **Days to dates and back.** -/
theorem daysFromCivil_civilFromDays (days : Int) :
    daysFromCivil (civilFromDays days).1 (civilFromDays days).2.1 (civilFromDays days).2.2 = days := by
  obtain ⟨era, yoe, doy, hin, rfl⟩ := exists_eraDay days
  have hdoy : doy ≤ 365 := by
    obtain ⟨hyoe, hera, hyear⟩ := hin
    unfold yearStart at *
    omega
  rw [civilFromDays_eraDay era hin]
  generalize hmp : (5 * doy + 2) / 153 = mp
  have hstart : monthStart mp ≤ doy ∧ doy ≤ monthStart mp + 30 := by
    unfold monthStart
    omega
  have hmonth : mp ≤ 11 := by omega
  dsimp only
  rw [daysFromCivil_eraDay era hin.1 hmonth (by omega) (by omega)]
  congr 1
  omega

def monthLength (year : Int) (month : Nat) : Nat :=
  if month = 2 then if year % 4 = 0 ∧ (year % 100 ≠ 0 ∨ year % 400 = 0) then 29 else 28
  else if month = 4 ∨ month = 6 ∨ month = 9 ∨ month = 11 then 30 else 31

theorem monthLength_le (year : Int) (month : Nat) : monthLength year month ≤ 31 := by
  unfold monthLength
  split
  · split <;> decide
  · split <;> decide

/-- **Dates to days and back**, for the dates of the calendar. -/
theorem civilFromDays_daysFromCivil (year : Int) {month day : Nat} (hmonth : 1 ≤ month ∧ month ≤ 12)
    (hday : 1 ≤ day ∧ day ≤ monthLength year month) :
    civilFromDays (daysFromCivil year month day) = (year, month, day) := by
  obtain ⟨mp, hmp, rfl⟩ : ∃ mp ≤ 11, month = monthAfterMarch mp := by
    refine ⟨if 2 < month then month - 3 else month + 9, by split <;> omega, ?_⟩
    rw [monthAfterMarch]
    split <;> split <;> omega
  obtain ⟨era, yoe, hyoe, rfl⟩ : ∃ (era : Int) (yoe : Nat), yoe ≤ 399 ∧
      year = yoe + era * 400 + if monthAfterMarch mp ≤ 2 then 1 else 0 := by
    generalize (if monthAfterMarch mp ≤ 2 then (1 : Int) else 0) = january
    exact ⟨(year - january) / 400, ((year - january) % 400).toNat, by omega, by omega⟩
  have hlen : day ≤ 31 := hday.2.trans (monthLength_le _ _)
  have hdoy : (5 * (monthStart mp + day - 1) + 2) / 153 = mp ∧ InYear yoe (monthStart mp + day - 1) := by
    unfold InYear monthStart yearStart
    unfold monthLength at hday
    interval_cases mp <;> simp [monthAfterMarch] at hday ⊢
    any_goals omega
    -- In February the leap rule decides.
    split at hday <;> omega
  rw [daysFromCivil_eraDay era hyoe hmp hday.1 hlen, civilFromDays_eraDay era hdoy.2, hdoy.1]
  congr 2
  omega

/-! ## Texts -/

def digitByte (digit : Nat) : UInt8 := UInt8.ofNat (0x30 + digit)

theorem digitByte_reads {digit : Nat} (h : digit < 10) :
    isDigit (digitByte digit) = true ∧ (digitByte digit).toNat - 0x30 = digit :=
  ⟨(digit_byte ⟨digit, h⟩).1, (digit_byte ⟨digit, h⟩).2.1⟩

/-- A number that fits its field is written with exactly as many digits. -/
theorem zeroPadded_digits {width n : Nat} (hwidth : 0 < width) (h : n < 10 ^ width) :
    ∃ digits, zeroPadded width (streamed n) = digitBytes digits ∧ digits.length = width ∧ Digits digits ∧
      ofDigits digits = n := by
  have hstreamed : streamed n = digitBytes (digitsOf n) := rfl
  have hlen : (digitsOf n).length ≤ width := by
    obtain rfl | hpos := Nat.eq_zero_or_pos n
    · exact hwidth
    obtain ⟨head, tail, heq, hhead⟩ := digitsOf_head hpos
    have hvalue := ofDigits_digitsOf n
    rw [heq, ofDigits_cons] at hvalue
    rw [heq, List.length_cons]
    have hle : 10 ^ tail.length ≤ head * 10 ^ tail.length := Nat.le_mul_of_pos_left _ (Nat.pos_of_ne_zero hhead)
    exact (Nat.pow_lt_pow_iff_right (by decide : 1 < 10)).1 (by omega)
  refine ⟨List.replicate (width - (digitsOf n).length) 0 ++ digitsOf n, ?_, ?_, ?_, ?_⟩
  · rw [zeroPadded, hstreamed, digitBytes, digitBytes, List.length_map, List.map_append, List.map_replicate]
    rfl
  · rw [List.length_append, List.length_replicate]
    omega
  · exact digits_append (digits_replicate _) (digitsOf_lt n)
  · rw [ofDigits_append, ofDigits_zeros, ofDigits_digitsOf]
    omega

theorem two_digits {n : Nat} (h : n < 100) : ∃ a < 10, ∃ b < 10,
    zeroPadded 2 (streamed n) = [digitByte a, digitByte b] ∧ n = a * 10 + b := by
  obtain ⟨digits, htext, hlen, hdig, hvalue⟩ := zeroPadded_digits (by decide : 0 < 2) h
  obtain ⟨a, b, rfl⟩ := List.length_eq_two.1 hlen
  exact ⟨a, hdig a (by simp), b, hdig b (by simp), htext, by simp [← hvalue, ofDigits]; omega⟩

theorem three_digits {n : Nat} (h : n < 1000) : ∃ a < 10, ∃ b < 10, ∃ c < 10,
    zeroPadded 3 (streamed n) = [digitByte a, digitByte b, digitByte c] ∧ n = (a * 10 + b) * 10 + c := by
  obtain ⟨digits, htext, hlen, hdig, hvalue⟩ := zeroPadded_digits (by decide : 0 < 3) h
  obtain ⟨a, b, c, rfl⟩ := List.length_eq_three.1 hlen
  exact ⟨a, hdig a (by simp), b, hdig b (by simp), c, hdig c (by simp), htext,
    by simp [← hvalue, ofDigits]; omega⟩

theorem four_digits {n : Nat} (h : n < 10000) : ∃ a < 10, ∃ b < 10, ∃ c < 10, ∃ d < 10,
    zeroPadded 4 (streamed n) = [digitByte a, digitByte b, digitByte c, digitByte d] ∧
      n = ((a * 10 + b) * 10 + c) * 10 + d := by
  obtain ⟨digits, htext, hlen, hdig, hvalue⟩ := zeroPadded_digits (by decide : 0 < 4) h
  obtain ⟨a, digits, rfl⟩ := List.exists_cons_of_length_eq_add_one hlen
  obtain ⟨b, c, d, rfl⟩ := List.length_eq_three.1 (Nat.succ.inj hlen)
  exact ⟨a, hdig a (by simp), b, hdig b (by simp), c, hdig c (by simp), d, hdig d (by simp), htext,
    by simp [← hvalue, ofDigits]; omega⟩

/-- **Written fields are read back.** -/
theorem parse_isoText {year month day hour minute second millis : Nat} (hyear : year < 10000) (hmonth : month < 100)
    (hday : day < 100) (hhour : hour < 100) (hminute : minute < 100) (hsnd : second < 100) (hmillis : millis < 1000) :
    parseIsoTimestampMs (isoText year month day hour minute second millis) =
      (((daysFromCivil year month day * 24 + hour) * 60 + minute) * 60 + second) * 1000 + millis := by
  obtain ⟨a, ha, b, hb, c, hc, d, hd, htext, rfl⟩ := four_digits hyear
  obtain ⟨e, he, f, hf, hmonth, rfl⟩ := two_digits hmonth
  obtain ⟨g, hg, i, hi, hday, rfl⟩ := two_digits hday
  obtain ⟨j, hj, k, hk, hhour, rfl⟩ := two_digits hhour
  obtain ⟨l, hl, m, hm, hminute, rfl⟩ := two_digits hminute
  obtain ⟨n, hn, o, ho, hsnd, rfl⟩ := two_digits hsnd
  obtain ⟨p, hp, q, hq, r, hr, hmillis, rfl⟩ := three_digits hmillis
  rw [isoText, htext, hmonth, hday, hhour, hminute, hsnd, hmillis]
  have hz : isDigit 0x5A = false := rfl
  simp [parseIsoTimestampMs, parseFixedInt, readMillis, digitByte_reads, *]
  omega

/-! ## The round trip -/

theorem civilFromDays_year {days : Int} (hfirst : -719528 ≤ days) (hlast : days < 2932897) :
    0 ≤ (civilFromDays days).1 ∧ (civilFromDays days).1 < 10000 := by
  obtain ⟨era, yoe, doy, hin, rfl⟩ := exists_eraDay days
  rw [civilFromDays_eraDay era hin]
  obtain ⟨hyoe, hera, hyear⟩ := hin
  have hjanuary : monthAfterMarch ((5 * doy + 2) / 153) ≤ 2 ↔ 306 ≤ doy := by
    have hdoy : doy ≤ 365 := by
      unfold yearStart at *
      omega
    unfold monthAfterMarch
    split <;> omega
  simp only [hjanuary]
  have hstart : yearStart yoe ≤ 145731 := yearStart_mono hyoe
  unfold eraDay at hfirst hlast
  -- Only the first and the last era hold days of other years.
  obtain rfl | rfl | hinner : era = -1 ∨ era = 24 ∨ 0 ≤ era ∧ era ≤ 23 := by omega
  · unfold yearStart at *
    split <;> omega
  · unfold yearStart at *
    split <;> omega
  · split <;> omega

theorem civilFromDays_fields (days : Int) : (1 ≤ (civilFromDays days).2.1 ∧ (civilFromDays days).2.1 ≤ 12) ∧
      1 ≤ (civilFromDays days).2.2 ∧ (civilFromDays days).2.2 ≤ 31 := by
  obtain ⟨era, yoe, doy, hin, rfl⟩ := exists_eraDay days
  rw [civilFromDays_eraDay era hin]
  obtain ⟨hyoe, hera, hyear⟩ := hin
  unfold yearStart at *
  unfold monthAfterMarch monthStart
  dsimp only
  split <;> omega

/-- The fields of a timestamp, with the days and the time of day as quotient and remainder. -/
theorem format_eq (ms : Int) : formatIsoTimestampMs ms =
    isoText (civilFromDays (ms / 86400000)).1 (civilFromDays (ms / 86400000)).2.1 (civilFromDays (ms / 86400000)).2.2
      (ms % 86400000 / 3600000) (ms % 86400000 / 60000 % 60) (ms % 86400000 / 1000 % 60) (ms % 1000) := by
  have hfloor := tdiv_floor ms (by decide : (0 : Int) < 86400000)
  rw [show (86400000 - 1 : Int) = 86399999 by rfl] at hfloor
  rw [formatIsoTimestampMs, hfloor, show ms - ms / 86400000 * 86400000 = ms % 86400000 by omega]
  congr 1
  omega

/-- A text in the written form that names a date of the calendar and a time of day. -/
def NamesTime (text : Bytes) : Prop :=
  ∃ year month day hour minute second millis : Nat, year < 10000 ∧ (1 ≤ month ∧ month ≤ 12) ∧
    (1 ≤ day ∧ day ≤ monthLength year month) ∧ hour < 24 ∧ minute < 60 ∧ second < 60 ∧ millis < 1000 ∧
    text = isoText year month day hour minute second millis

/-- **Timestamps survive the session file.** The bounds are the first milliseconds of the years 0 and 10000. -/
theorem timestamps_roundTrip :
    (∀ ms, -62167219200000 ≤ ms → ms < 253402300800000 → parseIsoTimestampMs (formatIsoTimestampMs ms) = ms) ∧
    ∀ text, NamesTime text → formatIsoTimestampMs (parseIsoTimestampMs text) = text := by
  constructor
  · intro ms hfirst hlast
    obtain ⟨hyear, hyearlt⟩ := civilFromDays_year (show -719528 ≤ ms / 86400000 by omega) (by omega)
    obtain ⟨hmonth, hday⟩ := civilFromDays_fields (ms / 86400000)
    have hdays := daysFromCivil_civilFromDays (ms / 86400000)
    rw [format_eq]
    generalize civilFromDays (ms / 86400000) = date at *
    obtain ⟨year, month, day⟩ := date
    obtain ⟨year, rfl⟩ := Int.eq_ofNat_of_zero_le hyear
    obtain ⟨hour, hhour⟩ := Int.eq_ofNat_of_zero_le (show 0 ≤ ms % 86400000 / 3600000 by omega)
    obtain ⟨minute, hminute⟩ := Int.eq_ofNat_of_zero_le (show 0 ≤ ms % 86400000 / 60000 % 60 by omega)
    obtain ⟨second, hsecond⟩ := Int.eq_ofNat_of_zero_le (show 0 ≤ ms % 86400000 / 1000 % 60 by omega)
    obtain ⟨millis, hmillis⟩ := Int.eq_ofNat_of_zero_le (show 0 ≤ ms % 1000 by omega)
    dsimp only at *
    rw [hhour, hminute, hsecond, hmillis, parse_isoText (by omega) (by omega) (by omega) (by omega) (by omega)
      (by omega) (by omega), hdays]
    omega
  · rintro text ⟨year, month, day, hour, minute, second, millis, hyear, hmonth, hday, hhour, hminute, hsecond,
      hmillis, rfl⟩
    have hlength := hday.2.trans (monthLength_le year month)
    rw [parse_isoText hyear (by omega) (by omega) (by omega) (by omega) (by omega) hmillis, format_eq]
    have hdate := civilFromDays_daysFromCivil year hmonth hday
    generalize daysFromCivil year month day = days at *
    rw [show ((((days * 24 + hour) * 60 + minute) * 60 + second) * 1000 + millis : Int) / 86400000 = days by omega,
      hdate]
    congr 1 <;> omega

theorem timestamps_roundTrip_leapDay :
    parseIsoTimestampMs (formatIsoTimestampMs (-62162121600001)) = -62162121600001 ∧
    formatIsoTimestampMs (parseIsoTimestampMs (isoText 2024 2 29 23 59 59 999)) = isoText 2024 2 29 23 59 59 999 :=
  ⟨timestamps_roundTrip.1 _ (by decide) (by decide),
    timestamps_roundTrip.2 _ ⟨2024, 2, 29, 23, 59, 59, 999, by decide, by decide, by decide, by decide, by decide,
      by decide, by decide, rfl⟩⟩

/-- A date that the calendar does not have is read as a later one. -/
theorem missing_date_moves :
    formatIsoTimestampMs (parseIsoTimestampMs (isoText 2024 2 30 0 0 0 0)) = isoText 2024 3 1 0 0 0 0 ∧
    isoText 2024 2 30 0 0 0 0 ≠ isoText 2024 3 1 0 0 0 0 := by
  decide

end CodingHarness.Agent
