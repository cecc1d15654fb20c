import Coring.Framework.Storage
import Mathlib.Algebra.Group.Nat.Defs
import Mathlib.Data.Int.Notation
import Mathlib.Order.Lattice

/-!
# Time stamps and their text

This file embeds `include/coring/timestamp.hpp` and
`include/coring/detail/logging/log_timestamp.hpp`.  A time point is a number of nanoseconds since
the epoch; `std::chrono` turns it into a date and a time of day, and `::snprintf` into text.

`::snprintf` is given the width of each field as its limit and returns the length the text would
have without one, so a text that is too long is cut off and the pointer returned is past what was
written. From the epoch to the end of the year 9999 every field has its width (`length_dateText`,
`length_baseTimeText`, `length_microText`), and a whole time stamp is the three texts in a row
(`formatTo_spec`).
-/

namespace Coring.Logging

/-! ## Dates -/

/-- `std::chrono::year_month_day`. -/
structure YearMonthDay where
  year : ℤ
  month : ℕ
  day : ℕ
  deriving Repr, DecidableEq

/-- The conversion of a number of days since 1970-01-01.  It counts in eras of 400 years that begin
on the first of March. -/
def YearMonthDay.ofDays (days : ℤ) : YearMonthDay :=
  let z := days + 719468
  let era := z / 146097
  let dayOfEra := z % 146097
  let yearOfEra := (dayOfEra - dayOfEra / 1460 + dayOfEra / 36524 - dayOfEra / 146096) / 365
  let dayOfYear := dayOfEra - (365 * yearOfEra + yearOfEra / 4 - yearOfEra / 100)
  let mp := (5 * dayOfYear + 2) / 153
  let day := dayOfYear - (153 * mp + 2) / 5 + 1
  let month := if mp < 10 then mp + 3 else mp - 9
  ⟨yearOfEra + era * 400 + if month ≤ 2 then 1 else 0, month.toNat, day.toNat⟩

example : YearMonthDay.ofDays 19782 = ⟨2024, 2, 29⟩ := by decide

/-- `std::chrono::hh_mm_ss<microseconds>`, without the sign. -/
structure HhMmSs where
  hours : ℕ
  minutes : ℕ
  seconds : ℕ
  subseconds : ℕ
  deriving Repr, DecidableEq

def HhMmSs.ofMicroseconds (us : ℤ) : HhMmSs :=
  ⟨us.natAbs / 3600000000, us.natAbs / 60000000 % 60, us.natAbs / 1000000 % 60,
    us.natAbs % 1000000⟩

/-- Nanoseconds in a second and in a day. -/
def nsPerSecond : ℤ := 1000000000
def nsPerDay : ℤ := 86400000000000

/-! ## Time stamps -/

/-- `timestamp`. -/
structure Timestamp where
  sysTimestamp : ℤ
  ymdData : YearMonthDay
  hmsData : HhMmSs
  deriving Repr, DecidableEq

namespace Timestamp

/-- The constructor.  The date rounds down, the casts towards zero. -/
def new (t : ℤ) : Timestamp where
  sysTimestamp := t
  ymdData := YearMonthDay.ofDays (t / nsPerDay)
  hmsData := HhMmSs.ofMicroseconds ((t - t.tdiv nsPerDay * nsPerDay).tdiv 1000)

def sameDate (ts rhs : Timestamp) : Bool :=
  ts.sysTimestamp / nsPerDay = rhs.sysTimestamp / nsPerDay

def sameSecond (ts rhs : Timestamp) : Bool :=
  ts.sysTimestamp / nsPerSecond = rhs.sysTimestamp / nsPerSecond

end Timestamp

/-! ## Text -/

/-- `%d`. -/
def intText (n : ℤ) : List Char :=
  if n < 0 then '-' :: Nat.toDigits 10 n.natAbs else Nat.toDigits 10 n.natAbs

/-- `%0nu`. -/
def zeroPadded (n k : ℕ) : List Char := (Nat.toDigits 10 k).leftpad n '0'

/-- `TS_FMT_DATE`. -/
def dateText (d : YearMonthDay) : List Char :=
  (intText d.year).leftpad 4 ' ' ++ ['-'] ++ zeroPadded 2 d.month ++ ['-'] ++
    zeroPadded 2 d.day ++ [' ']

/-- `TS_FMT_BASE_TIME`. -/
def baseTimeText (t : HhMmSs) : List Char :=
  zeroPadded 2 t.hours ++ [':'] ++ zeroPadded 2 t.minutes ++ [':'] ++ zeroPadded 2 t.seconds ++
    [' ']

/-- `TS_FMT_MICRO_SEC`. -/
def microText (t : HhMmSs) : List Char := ['.'] ++ zeroPadded 6 t.subseconds ++ [' ']

def fmtDateLen : ℕ := 11
def fmtBaseTimeLen : ℕ := 9
def fmtMicroSecondLen : ℕ := 8
def timeStringLen : ℕ := fmtDateLen + fmtBaseTimeLen + fmtMicroSecondLen

/-- `::snprintf(buf + pos, n, ..)` with the text it prints: the buffer, and `buf + pos` moved on by
the number returned. -/
def snprintf (buf : List Char) (pos n : ℕ) (text : List Char) : List Char × ℕ :=
  (overwrite buf pos (text.take (n - 1) ++ [Char.ofNat 0]), pos + text.length)

namespace Timestamp

def formatDateTo (ts : Timestamp) (buf : List Char) (pos : ℕ) : List Char × ℕ :=
  snprintf buf pos (fmtDateLen + 1) (dateText ts.ymdData)

def formatBaseTimeTo (ts : Timestamp) (buf : List Char) (pos : ℕ) : List Char × ℕ :=
  snprintf buf pos (fmtBaseTimeLen + 1) (baseTimeText ts.hmsData)

def formatMicroTo (ts : Timestamp) (buf : List Char) (pos : ℕ) : List Char × ℕ :=
  snprintf buf pos (fmtMicroSecondLen + 1) (microText ts.hmsData)

def formatTimeTo (ts : Timestamp) (buf : List Char) (pos : ℕ) : List Char × ℕ :=
  let (buf, n) := ts.formatBaseTimeTo buf pos
  ts.formatMicroTo buf n

def formatTo (ts : Timestamp) (buf : List Char) (pos : ℕ) : List Char × ℕ :=
  let (buf, n) := ts.formatDateTo buf pos
  ts.formatTimeTo buf n

end Timestamp

/-! ## From the epoch to the end of the year 9999 -/

/-- The time points whose dates have four-digit years. -/
def FourDigitYear (t : ℤ) : Prop := 0 ≤ t ∧ t < 2932897 * nsPerDay

instance (t : ℤ) : Decidable (FourDigitYear t) := inferInstanceAs (Decidable (_ ∧ _))

/-- The calendar counts its years from March in eras of 400, -/
lemma yearOfEra_bounds {doe : ℤ} (h₀ : 0 ≤ doe) (h : doe < 146097) :
    0 ≤ (doe - doe / 1460 + doe / 36524 - doe / 146096) / 365 ∧
      (doe - doe / 1460 + doe / 36524 - doe / 146096) / 365 < 400 := by omega

/-- and its days in years. -/
lemma dayOfYear_bounds {doe y : ℤ} (h₀ : 0 ≤ doe) (h : doe < 146097)
    (hy : y = (doe - doe / 1460 + doe / 36524 - doe / 146096) / 365) :
    0 ≤ doe - (365 * y + y / 4 - y / 100) ∧ doe - (365 * y + y / 4 - y / 100) < 366 := by
  -- Within one century the year and the day are linear in each other but for the leap days.
  have hcentury : y / 100 = 0 ∨ y / 100 = 1 ∨ y / 100 = 2 ∨ y / 100 = 3 := by omega
  obtain hc | hc | hc | hc := hcentury <;> omega

/-- What the conversion computes: a year of an era, a month counted from March on, and a day, which
together make up the days. -/
lemma ofDays_spec (days : ℤ) : ∃ era y mp day : ℤ, (0 ≤ y ∧ y < 400) ∧ (0 ≤ mp ∧ mp < 12) ∧
    (1 ≤ day ∧ day ≤ 31) ∧
    days + 719468
      = 146097 * era + (365 * y + y / 4 - y / 100) + ((153 * mp + 2) / 5 + day - 1) ∧
    YearMonthDay.ofDays days
      = ⟨y + era * 400 + if (if mp < 10 then mp + 3 else mp - 9) ≤ 2 then 1 else 0,
        (if mp < 10 then mp + 3 else mp - 9).toNat, day.toNat⟩ := by
  have hsplit := Int.mul_ediv_add_emod (days + 719468) 146097
  have hdoe₀ : 0 ≤ (days + 719468) % 146097 := Int.emod_nonneg _ (by decide)
  have hdoe : (days + 719468) % 146097 < 146097 := Int.emod_lt_of_pos _ (by decide)
  simp only [YearMonthDay.ofDays]
  generalize (days + 719468) / 146097 = era at *
  generalize (days + 719468) % 146097 = doe at *
  obtain ⟨hy₀, hy⟩ := yearOfEra_bounds hdoe₀ hdoe
  obtain ⟨hdoy₀, hdoy⟩ := dayOfYear_bounds hdoe₀ hdoe rfl
  generalize (doe - doe / 1460 + doe / 36524 - doe / 146096) / 365 = y at *
  refine ⟨era, y, _, _, ⟨hy₀, hy⟩, ?_, ?_, ?_, rfl⟩
  · omega
  · omega
  · omega

lemma ofDays_bounds {days : ℤ} (h₀ : 0 ≤ days) (h : days < 2932897) :
    0 ≤ (YearMonthDay.ofDays days).year ∧ (YearMonthDay.ofDays days).year < 10000 ∧
      (YearMonthDay.ofDays days).month < 100 ∧ (YearMonthDay.ofDays days).day < 100 := by
  obtain ⟨era, y, mp, day, hy, hmp, hday, hsum, heq⟩ := ofDays_spec days
  simp only [heq]
  refine ⟨?_, ?_, ?_, ?_⟩
  · split <;> omega
  · split <;> split <;> omega
  · split <;> omega
  · omega

lemma length_zeroPadded {n k : ℕ} (hn : 0 < n) (hk : k < 10 ^ n) :
    (zeroPadded n k).length = n := by
  have hlen := (Nat.length_toDigits_le_iff (by decide : 1 < 10) hn).mpr hk
  rw [zeroPadded, List.length_leftpad, max_eq_left hlen]

lemma length_year {y : ℤ} (h₀ : 0 ≤ y) (h : y < 10000) :
    ((intText y).leftpad 4 ' ').length = 4 := by
  have hlen := (Nat.length_toDigits_le_iff (n := y.natAbs) (by decide : 1 < 10)
    (by decide : 0 < 4)).mpr (by omega)
  rw [intText, if_neg (by omega), List.length_leftpad, max_eq_left hlen]

variable {t : ℤ}

/-- From the epoch on the casts round down as well. -/
lemma hmsData_new (h : 0 ≤ t) : (Timestamp.new t).hmsData
    = HhMmSs.ofMicroseconds (t % nsPerDay / 1000) := by
  have hday : t - t.tdiv nsPerDay * nsPerDay = t % nsPerDay := by
    rw [Int.tdiv_eq_ediv_of_nonneg h, Int.emod_def, Int.mul_comm]
  have hpos : 0 ≤ t % nsPerDay := Int.emod_nonneg _ (by decide)
  rw [Timestamp.new, hday, Int.tdiv_eq_ediv_of_nonneg hpos]

/-- The time of day, but for its microseconds, is that of the second. -/
lemma hmsData_of_second (h : 0 ≤ t) :
    ((Timestamp.new t).hmsData.hours : ℤ) = t / nsPerSecond % 86400 / 3600 ∧
    ((Timestamp.new t).hmsData.minutes : ℤ) = t / nsPerSecond % 86400 / 60 % 60 ∧
    ((Timestamp.new t).hmsData.seconds : ℤ) = t / nsPerSecond % 60 := by
  rw [hmsData_new h]
  simp only [HhMmSs.ofMicroseconds, nsPerDay, nsPerSecond]
  omega

lemma length_dateText (h : FourDigitYear t) :
    (dateText (Timestamp.new t).ymdData).length = fmtDateLen := by
  obtain ⟨h₀, ht⟩ := h
  have hdays : t / nsPerDay < 2932897 := Int.ediv_lt_of_lt_mul (by decide) ht
  obtain ⟨hy₀, hy, hm, hd⟩ := ofDays_bounds (Int.ediv_nonneg h₀ (by decide)) hdays
  simp only [Timestamp.new, dateText, List.length_append, List.length_singleton,
    length_year hy₀ hy, length_zeroPadded (n := 2) (by decide) hm,
    length_zeroPadded (n := 2) (by decide) hd, fmtDateLen]

lemma length_baseTimeText (h : 0 ≤ t) :
    (baseTimeText (Timestamp.new t).hmsData).length = fmtBaseTimeLen := by
  obtain ⟨hh, hm, hs⟩ := hmsData_of_second h
  have hpos : 0 ≤ t / nsPerSecond := Int.ediv_nonneg h (by decide)
  simp only [baseTimeText, List.length_append, List.length_singleton,
    length_zeroPadded (n := 2) (k := (Timestamp.new t).hmsData.hours) (by decide) (by omega),
    length_zeroPadded (n := 2) (k := (Timestamp.new t).hmsData.minutes) (by decide) (by omega),
    length_zeroPadded (n := 2) (k := (Timestamp.new t).hmsData.seconds) (by decide) (by omega),
    fmtBaseTimeLen]

lemma length_microText (us : ℤ) :
    (microText (HhMmSs.ofMicroseconds us)).length = fmtMicroSecondLen := by
  have hlt : us.natAbs % 1000000 < 10 ^ 6 := Nat.mod_lt _ (by decide)
  simp only [microText, HhMmSs.ofMicroseconds, List.length_append, List.length_singleton,
    length_zeroPadded (by decide : 0 < 6) hlt, fmtMicroSecondLen]

/-! ## Printing behind what is there -/

/-- A text that has its width is printed behind the first `pos` characters. -/
lemma snprintf_spec {buf text front : List Char} {pos n : ℕ} (hfront : buf.take pos = front)
    (hpos : front.length = pos) (hlen : text.length = n) :
    ∃ buf', snprintf buf pos (n + 1) text = (buf', pos + n) ∧
      buf'.take (pos + n) = front ++ text := by
  refine ⟨_, by rw [snprintf, hlen], ?_⟩
  rw [Nat.add_sub_cancel, ← hlen, List.take_length, overwrite, hfront, List.append_assoc,
    List.append_assoc, ← List.append_assoc front text, List.take_left']
  rw [List.length_append, hpos]

section Format

variable {buf front : List Char} {pos : ℕ}

lemma formatMicroTo_spec (t : ℤ) (hfront : buf.take pos = front) (hpos : front.length = pos) :
    ∃ buf', (Timestamp.new t).formatMicroTo buf pos = (buf', pos + fmtMicroSecondLen) ∧
      buf'.take (pos + fmtMicroSecondLen) = front ++ microText (Timestamp.new t).hmsData :=
  snprintf_spec hfront hpos (length_microText _)

lemma formatTimeTo_spec (h : 0 ≤ t) (hfront : buf.take pos = front) (hpos : front.length = pos) :
    ∃ buf', (Timestamp.new t).formatTimeTo buf pos
        = (buf', pos + fmtBaseTimeLen + fmtMicroSecondLen) ∧
      buf'.take (pos + fmtBaseTimeLen + fmtMicroSecondLen)
        = front ++ baseTimeText (Timestamp.new t).hmsData ++
          microText (Timestamp.new t).hmsData := by
  obtain ⟨buf₁, hprint, htake⟩ := snprintf_spec hfront hpos (length_baseTimeText h)
  obtain ⟨buf', hmicro, htake'⟩ := formatMicroTo_spec t htake
    (by rw [List.length_append, hpos, length_baseTimeText h])
  refine ⟨buf', ?_, htake'⟩
  rw [Timestamp.formatTimeTo, Timestamp.formatBaseTimeTo, hprint]
  exact hmicro

/-- **A whole time stamp** is its three texts in a row. -/
lemma formatTo_spec (h : FourDigitYear t) (hfront : buf.take pos = front)
    (hpos : front.length = pos) :
    ∃ buf', (Timestamp.new t).formatTo buf pos
        = (buf', pos + fmtDateLen + fmtBaseTimeLen + fmtMicroSecondLen) ∧
      buf'.take (pos + fmtDateLen + fmtBaseTimeLen + fmtMicroSecondLen)
        = front ++ dateText (Timestamp.new t).ymdData ++ baseTimeText (Timestamp.new t).hmsData ++
          microText (Timestamp.new t).hmsData := by
  obtain ⟨buf₁, hprint, htake⟩ := snprintf_spec hfront hpos (length_dateText h)
  obtain ⟨buf', htime, htake'⟩ := formatTimeTo_spec h.1 htake
    (by rw [List.length_append, hpos, length_dateText h])
  refine ⟨buf', ?_, htake'⟩
  rw [Timestamp.formatTo, Timestamp.formatDateTo, hprint]
  exact htime

end Format

end Coring.Logging
