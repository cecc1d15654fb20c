import Coring.Framework.Machine
import Coring.Logging.AsyncLogger
import Coring.Logging.Timestamp

/-!
# The logger's time stamp

`async_logger` keeps the text of the last entry's time stamp in `time_buffer_` and brings it up to
date for the next entry: within a second only the microseconds are printed again, within a day only
the time of day.  This file embeds the `update_datetime` functions of
`include/coring/async_logger.hpp` and the part of the constructor that fills the buffer, and shows
that the text is always the one printed from scratch (`time_buffer_eq`).  The entries come from
several threads, so their time stamps may be in any order.

`std::swap` exchanges the time stamps as whole objects; the member function `swap` of `timestamp` is
not what it calls.

The loop over the backlogs in `Coring.Logging.AsyncLogger` leaves the text of a time stamp open.
With this buffer it writes the same as with time stamps that are printed from scratch
(`writeAll_buffered`).
-/

namespace Coring.Logging

/-- `last_time_` and `time_buffer_` of an `async_logger`. -/
structure TimeBuffer where
  lastTime : Timestamp
  timeBuffer : List Char
  deriving Repr, DecidableEq

namespace TimeBuffer

/-- `assert_eq(end, time_buffer_ + log_timestamp::time_string_len)`, after printing. -/
def checked (s : TimeBuffer) (printed : List Char × ℕ) : Option TimeBuffer :=
  if printed.2 = timeStringLen then some { s with timeBuffer := printed.1 } else none

/-- `update_datetime()`. -/
def updateDatetime (s : TimeBuffer) : Option TimeBuffer :=
  s.checked (s.lastTime.formatTo s.timeBuffer 0)

def updateDatetimeTime (s : TimeBuffer) : Option TimeBuffer :=
  s.checked (s.lastTime.formatTimeTo s.timeBuffer fmtDateLen)

def updateDatetimeMicro (s : TimeBuffer) : Option TimeBuffer :=
  s.checked (s.lastTime.formatMicroTo s.timeBuffer (fmtDateLen + fmtBaseTimeLen))

/-- `update_datetime(ts)`. -/
def updateDatetimeTo (s : TimeBuffer) (ts : Timestamp) : Option TimeBuffer :=
  let (lastTime, ts) := (ts, s.lastTime)
  let s := { s with lastTime := lastTime }
  if ts.sameDate lastTime then
    if ts.sameSecond lastTime then s.updateDatetimeMicro else s.updateDatetimeTime
  else s.updateDatetime

/-- What the constructor does at the time `now`: the buffer is filled, and its last character is
set to zero. -/
def start (now : ℤ) : Option TimeBuffer := do
  let s : TimeBuffer := ⟨Timestamp.new now, List.replicate (timeStringLen + 1) (Char.ofNat 0)⟩
  let s ← s.updateDatetime
  some { s with timeBuffer := s.timeBuffer.set (timeStringLen - 1) (Char.ofNat 0) }

/-- The time stamps of the entries, one after the other. -/
def machine : Machine TimeBuffer ℤ := ⟨fun s t => s.updateDatetimeTo (Timestamp.new t)⟩

/-! ## What the buffer shows -/

/-- The text of a time stamp up to the microseconds. -/
def secondText (ts : Timestamp) : List Char := dateText ts.ymdData ++ baseTimeText ts.hmsData

/-- Up to the microseconds the buffer shows the last time stamp. -/
structure Inv (s : TimeBuffer) : Prop where
  last : ∃ t, FourDigitYear t ∧ s.lastTime = Timestamp.new t
  shows : s.timeBuffer.take (fmtDateLen + fmtBaseTimeLen) = secondText s.lastTime

/-- The buffer shows a time stamp, all of it. -/
def Shows (s : TimeBuffer) (ts : Timestamp) : Prop :=
  s.timeBuffer.take timeStringLen = secondText ts ++ microText ts.hmsData

variable {s s' : TimeBuffer} {t u : ℤ}

lemma length_secondText (h : FourDigitYear t) :
    (secondText (Timestamp.new t)).length = fmtDateLen + fmtBaseTimeLen := by
  rw [secondText, List.length_append, length_dateText h, length_baseTimeText h.1]

/-- What is printed from scratch is the two texts in a row, whatever the buffer was. -/
lemma formatTo_zero (h : FourDigitYear t) (buf : List Char) :
    ∃ buf', (Timestamp.new t).formatTo buf 0 = (buf', timeStringLen) ∧
      buf'.take timeStringLen
        = secondText (Timestamp.new t) ++ microText (Timestamp.new t).hmsData := by
  have hfront : buf.take 0 = [] := rfl
  obtain ⟨buf', hprint, htake⟩ := formatTo_spec h hfront rfl
  exact ⟨buf', hprint, htake⟩

/-- A buffer that shows a time stamp shows it up to the microseconds. -/
lemma Shows.inv (h : s.Shows (Timestamp.new t)) (ht : FourDigitYear t)
    (hlast : s.lastTime = Timestamp.new t) : s.Inv := by
  refine ⟨⟨t, ht, hlast⟩, ?_⟩
  have htake := congrArg (List.take (fmtDateLen + fmtBaseTimeLen)) h
  rw [List.take_take, List.take_left' (length_secondText ht)] at htake
  rw [hlast, ← htake]
  rfl

/-- Time stamps of one day have the same date. -/
lemma dateText_eq (h : t / nsPerDay = u / nsPerDay) :
    (Timestamp.new t).ymdData = (Timestamp.new u).ymdData := by
  rw [Timestamp.new, Timestamp.new, h]

/-- Those of one second have the same time of day up to the microseconds, and the same date. -/
lemma secondText_eq (ht : 0 ≤ t) (hu : 0 ≤ u) (h : t / nsPerSecond = u / nsPerSecond) :
    secondText (Timestamp.new t) = secondText (Timestamp.new u) := by
  have hday : t / nsPerDay = u / nsPerDay := by
    simp only [nsPerDay, nsPerSecond] at h ⊢
    omega
  obtain ⟨hh, hm, hs⟩ := hmsData_of_second ht
  obtain ⟨hh', hm', hs'⟩ := hmsData_of_second hu
  rw [h] at hh hm hs
  have hhours := Int.ofNat.inj (hh.trans hh'.symm)
  have hminutes := Int.ofNat.inj (hm.trans hm'.symm)
  have hseconds := Int.ofNat.inj (hs.trans hs'.symm)
  rw [secondText, secondText, dateText_eq hday, baseTimeText, baseTimeText, hhours, hminutes,
    hseconds]

/-! ## Steps -/

/-- An update that prints to the end of the buffer passes the assertion. -/
lemma checked_eq {buf : List Char} (s : TimeBuffer) :
    s.checked (buf, timeStringLen) = some { s with timeBuffer := buf } := if_pos rfl

lemma updateDatetime_spec (ht : FourDigitYear t) (buf : List Char) :
    ∃ s', (⟨Timestamp.new t, buf⟩ : TimeBuffer).updateDatetime = some s' ∧
      s'.lastTime = Timestamp.new t ∧ s'.Shows (Timestamp.new t) := by
  obtain ⟨buf', hprint, htake⟩ := formatTo_zero ht buf
  refine ⟨⟨Timestamp.new t, buf'⟩, ?_, rfl, htake⟩
  rw [updateDatetime, hprint]
  exact checked_eq _

/-- **One update.**  Whichever of the three functions is chosen, its assertion holds and the buffer
shows the new time stamp. -/
lemma updateDatetimeTo_spec (h : s.Inv) (hu : FourDigitYear u) :
    ∃ s', s.updateDatetimeTo (Timestamp.new u) = some s' ∧ s'.lastTime = Timestamp.new u ∧
      s'.Shows (Timestamp.new u) := by
  obtain ⟨⟨t, ht, hlast⟩, hshows⟩ := h
  rw [hlast] at hshows
  obtain ⟨last, buf⟩ := s
  obtain rfl : last = Timestamp.new t := hlast
  simp only [updateDatetimeTo]
  by_cases hdate : (Timestamp.new t).sameDate (Timestamp.new u) = true
  · have hday : t / nsPerDay = u / nsPerDay := of_decide_eq_true hdate
    rw [if_pos hdate]
    by_cases hsecond : (Timestamp.new t).sameSecond (Timestamp.new u) = true
    · -- Only the microseconds are printed.
      have hsec : t / nsPerSecond = u / nsPerSecond := of_decide_eq_true hsecond
      rw [if_pos hsecond]
      rw [secondText_eq ht.1 hu.1 hsec] at hshows
      obtain ⟨buf', hprint, htake⟩ := formatMicroTo_spec u hshows (length_secondText hu)
      refine ⟨⟨Timestamp.new u, buf'⟩, ?_, rfl, htake⟩
      rw [updateDatetimeMicro, hprint]
      exact checked_eq _
    · -- The time of day is printed behind the date.
      rw [if_neg hsecond]
      have hfront : buf.take fmtDateLen = dateText (Timestamp.new u).ymdData := by
        have htake := congrArg (List.take fmtDateLen) hshows
        rw [List.take_take, secondText, List.take_left' (length_dateText ht), dateText_eq hday]
          at htake
        exact htake
      obtain ⟨buf', hprint, htake⟩ := formatTimeTo_spec hu.1 hfront (length_dateText hu)
      refine ⟨⟨Timestamp.new u, buf'⟩, ?_, rfl, htake⟩
      rw [updateDatetimeTime, hprint]
      exact checked_eq _
  · rw [if_neg hdate]
    exact updateDatetime_spec hu buf

/-! ## Runs -/

/-- The zero that the constructor stores stands behind the seconds. -/
lemma start_spec (h : FourDigitYear t) : ∃ s, start t = some s ∧ s.Inv := by
  obtain ⟨s, hs, hlast, hshows⟩ :=
    updateDatetime_spec h (List.replicate (timeStringLen + 1) (Char.ofNat 0))
  refine ⟨{ s with timeBuffer := s.timeBuffer.set (timeStringLen - 1) (Char.ofNat 0) }, ?_, ?_⟩
  · rw [start]
    simp only [hs, Option.bind_eq_bind, Option.bind_some]
  · refine ⟨⟨t, h, hlast⟩, ?_⟩
    have hle : fmtDateLen + fmtBaseTimeLen ≤ timeStringLen - 1 := by decide
    rw [List.take_set_of_le hle]
    exact (hshows.inv h hlast).shows

/-- Over any list of entries the buffer stays that of the last one. -/
lemma run_spec (h : s.Inv) {ts : List ℤ} (hts : ∀ u ∈ ts, FourDigitYear u) :
    ∃ s', machine.run s ts = some s' ∧ s'.Inv := by
  refine machine.run_succeeds (fun s u hs hu => ?_) h hts
  obtain ⟨s', hstep, hlast, hshows⟩ := updateDatetimeTo_spec hs hu
  exact ⟨s', hstep, hshows.inv hu hlast⟩

/-- **The time stamp brought up to date is the one printed from scratch**, over any buffer
`scratch`: for entries in any order, with no assertion failing on the way. -/
theorem time_buffer_eq (now t : ℤ) (ts : List ℤ) (hnow : FourDigitYear now)
    (hts : ∀ u ∈ ts, FourDigitYear u) (ht : FourDigitYear t) :
    ∃ s₀ s, start now = some s₀ ∧ machine.run s₀ (ts ++ [t]) = some s ∧
      ∀ scratch, s.timeBuffer.take timeStringLen
        = ((Timestamp.new t).formatTo scratch 0).1.take timeStringLen := by
  obtain ⟨s₀, hstart, hinv⟩ := start_spec hnow
  obtain ⟨s₁, hrun, hinv⟩ := run_spec hinv hts
  obtain ⟨s, hstep, -, hshows⟩ := updateDatetimeTo_spec hinv ht
  refine ⟨s₀, s, hstart, ?_, fun scratch => ?_⟩
  · rw [Machine.run_append, hrun, Option.bind_some, Machine.run_cons_eq_some]
    exact ⟨s, hstep, rfl⟩
  · obtain ⟨buf', hprint, htake⟩ := formatTo_zero ht scratch
    rw [hprint]
    exact hshows.trans htake.symm

/-- The last entry's time stamp lies before the one before it, in the last microsecond of the
day before. -/
theorem time_buffer_eq_day_before :
    ∃ s₀ s, start 0 = some s₀ ∧
      machine.run s₀ ([86400000000000 + 5000, 86400000000000 + 1000000000] ++ [86399999999000])
        = some s ∧
      ∀ scratch, s.timeBuffer.take timeStringLen
        = ((Timestamp.new 86399999999000).formatTo scratch 0).1.take timeStringLen :=
  time_buffer_eq 0 86399999999000 [86400000000000 + 5000, 86400000000000 + 1000000000]
    (by decide) (by decide) (by decide)

/-! ## The text of the log -/

/-- The logger's own time stamps; an assertion that fails would end the program. -/
def buffered : Datetime ℤ where
  State := TimeBuffer
  updateDatetime s t := (s.updateDatetimeTo (Timestamp.new t)).getD s
  timeBuffer s := s.timeBuffer.take timeStringLen

/-- Time stamps that are printed from scratch. -/
def fromScratch : Datetime ℤ where
  State := ℤ
  updateDatetime _ t := t
  timeBuffer t := ((Timestamp.new t).formatTo [] 0).1.take timeStringLen

lemma write_buffered (h : s.Inv) (last : ℤ) {e : LogRingEntry ℤ} (he : FourDigitYear e.ts) :
    (buffered.write s e).2 = (fromScratch.write last e).2 ∧ (buffered.write s e).1.Inv := by
  obtain ⟨s', hstep, hlast, hshows⟩ := updateDatetimeTo_spec h he
  have hupdate : buffered.updateDatetime s e.ts = s' := by
    simp only [buffered, hstep, Option.getD_some]
  obtain ⟨buf', hprint, htake⟩ := formatTo_zero he []
  have htext : buffered.timeBuffer s' = fromScratch.timeBuffer e.ts := by
    simp only [fromScratch, hprint]
    exact hshows.trans htake.symm
  simp only [Datetime.write, hupdate, htext]
  exact ⟨rfl, hshows.inv he hlast⟩

/-- The log does not show that its time stamps are brought up to date. -/
lemma writeAll_buffered (h : s.Inv) (last : ℤ) {es : List (LogRingEntry ℤ)}
    (hes : ∀ e ∈ es, FourDigitYear e.ts) :
    (buffered.writeAll s es).2 = (fromScratch.writeAll last es).2 := by
  induction es generalizing s last with
  | nil => rfl
  | cons e es ih =>
    obtain ⟨hline, hnext⟩ := write_buffered h last (hes e (List.mem_cons_self ..))
    have hrest := ih hnext (fromScratch.write last e).1 fun e' he' =>
      hes e' (List.mem_cons_of_mem _ he')
    simp only [Datetime.writeAll, hline, hrest]

end TimeBuffer

end Coring.Logging
