import Coring.Framework.Machine
import Coring.Logging.Timestamp

/-!
# Exchanging time stamps

A `timestamp` keeps its time point, the date and the time of day next to each other, and its `swap`
exchanges them one by one: `std::swap(ts.ymd_data_, ts.ymd_data_)` exchanges the date of the
argument with itself, so each object keeps its own date (`swap`).

`toDays` is the day of a date, which makes dates of different days different (`ofDays_injective`).
The objects of a program are a machine whose steps are the calls of `swap`; next to them it keeps
what they would be if the calls exchanged the complete values.  `swaps_faithful_iff` is that the
fields describe the time points of the objects as long as the calls exchange time stamps of the same
date.
-/

namespace Coring.Logging

/-! ## The day of a date -/

namespace YearMonthDay

/-- The days from the first of March of the year 0 to that of year `y`. -/
def daysBefore (y : ℤ) : ℤ := 365 * y + y / 4 - y / 100 + y / 400

/-- The day of a date, counted from 1970-01-01. -/
def toDays (d : YearMonthDay) : ℤ :=
  let y := d.year - if d.month ≤ 2 then 1 else 0
  let mp : ℤ := if d.month ≤ 2 then d.month + 9 else d.month - 3
  daysBefore y + (153 * mp + 2) / 5 + d.day - 1 - 719468

/-- 400 years have a fixed number of days. -/
lemma daysBefore_era {y : ℤ} (era : ℤ) (h₀ : 0 ≤ y) (h : y < 400) :
    daysBefore (y + era * 400) = 146097 * era + (365 * y + y / 4 - y / 100) := by
  have h4 : (y + era * 400) / 4 = y / 4 + 100 * era := by omega
  have h100 : (y + era * 400) / 100 = y / 100 + 4 * era := by omega
  have h400 : (y + era * 400) / 400 = era := by omega
  rw [daysBefore, h4, h100, h400]
  omega

/-- A date from its year and month counted from March on. -/
lemma toDays_march (y : ℤ) {mp day : ℤ} (hmp₀ : 0 ≤ mp) (hmp : mp < 12) (hday : 0 ≤ day) :
    toDays ⟨y + if (if mp < 10 then mp + 3 else mp - 9) ≤ 2 then 1 else 0,
        (if mp < 10 then mp + 3 else mp - 9).toNat, day.toNat⟩
      = daysBefore y + (153 * mp + 2) / 5 + day - 1 - 719468 := by
  have hcast : (day.toNat : ℤ) = day := Int.toNat_of_nonneg hday
  simp only [toDays, hcast]
  by_cases hlow : mp < 10
  · have hmonth : ((mp + 3).toNat : ℤ) = mp + 3 := Int.toNat_of_nonneg (by omega)
    rw [if_pos hlow, if_neg (by omega), if_neg (by omega), if_neg (by omega), hmonth]
    simp only [Int.add_zero, Int.sub_zero, Int.add_sub_cancel]
  · have hmonth : ((mp - 9).toNat : ℤ) = mp - 9 := Int.toNat_of_nonneg (by omega)
    rw [if_neg hlow, if_pos (by omega), if_pos (by omega), if_pos (by omega), hmonth]
    simp only [Int.add_sub_cancel, Int.sub_add_cancel]

theorem toDays_ofDays (days : ℤ) : (ofDays days).toDays = days := by
  obtain ⟨era, y, mp, day, hy, hmp, hday, hsum, heq⟩ := ofDays_spec days
  rw [heq, toDays_march _ hmp.1 hmp.2 (by omega), daysBefore_era era hy.1 hy.2]
  omega

/-- Different days have different dates. -/
lemma ofDays_injective : Function.Injective ofDays := by
  intro d e h
  rw [← toDays_ofDays d, h, toDays_ofDays]

end YearMonthDay

/-! ## Getters and `swap` -/

namespace Timestamp

variable (ts rhs : Timestamp)

def year : ℤ := ts.ymdData.year
def month : ℕ := ts.ymdData.month
def day : ℕ := ts.ymdData.day
def hour : ℕ := ts.hmsData.hours
def minute : ℕ := ts.hmsData.minutes
def second : ℕ := ts.hmsData.seconds
def microsecond : ℕ := ts.hmsData.subseconds

/-- `swap`: the object and the argument after it. -/
def swap : Timestamp × Timestamp :=
  ({ sysTimestamp := rhs.sysTimestamp, ymdData := ts.ymdData, hmsData := rhs.hmsData },
    { sysTimestamp := ts.sysTimestamp, ymdData := rhs.ymdData, hmsData := ts.hmsData })

/-- The stored fields describe the time point. -/
structure Describes : Prop where
  date : ⟨ts.year, ts.month, ts.day⟩ = YearMonthDay.ofDays (ts.sysTimestamp / nsPerDay)
  hour_lt : ts.hour < 24
  minute_lt : ts.minute < 60
  second_lt : ts.second < 60
  microsecond_lt : ts.microsecond < 1000000
  /-- In microseconds, rounded down. -/
  time : ts.sysTimestamp / nsPerDay * 86400000000 + ts.hour * 3600000000 + ts.minute * 60000000 +
    ts.second * 1000000 + ts.microsecond = ts.sysTimestamp / 1000

/-- Built from a time point at or after the epoch. -/
def Built : Prop := ∃ t : ℤ, 0 ≤ t ∧ ts = new t

variable {ts rhs}

lemma Built.ymdData (h : ts.Built) :
    ts.ymdData = YearMonthDay.ofDays (ts.sysTimestamp / nsPerDay) := by
  obtain ⟨t, -, rfl⟩ := h
  rfl

lemma Built.describes (h : ts.Built) : ts.Describes := by
  obtain ⟨t, ht, rfl⟩ := h
  have hsub : 0 ≤ t % nsPerDay / 1000 := Int.ediv_nonneg (Int.emod_nonneg _ (by decide)) (by decide)
  have hlt : t % nsPerDay / 1000 < 86400000000 := by
    rw [nsPerDay]
    omega
  have hsplit : t / nsPerDay * 86400000000 + t % nsPerDay / 1000 = t / 1000 := by
    rw [nsPerDay]
    omega
  refine ⟨rfl, ?_, ?_, ?_, ?_, ?_⟩ <;>
    simp only [hour, minute, second, microsecond, hmsData_new ht, HhMmSs.ofMicroseconds]
  · omega
  · omega
  · omega
  · omega
  · change t / nsPerDay * 86400000000 + _ + _ + _ + _ = t / 1000
    omega

lemma sameDate_iff (hts : ts.Built) (hrhs : rhs.Built) :
    ts.sameDate rhs = true ↔ ts.ymdData = rhs.ymdData := by
  rw [hts.ymdData, hrhs.ymdData, YearMonthDay.ofDays_injective.eq_iff, sameDate, decide_eq_true_iff]

/-- Equal dates make the exchange complete, -/
lemma swap_eq (h : ts.ymdData = rhs.ymdData) : ts.swap rhs = (rhs, ts) := by
  obtain ⟨t, ymd, hms⟩ := ts
  obtain ⟨t', ymd', hms'⟩ := rhs
  obtain rfl : ymd = ymd' := h
  rfl

/-- and others leave behind a date that is not the one of the time point. -/
lemma ymdData_of_describes_swap (hrhs : rhs.Built) (h : (ts.swap rhs).1.Describes) :
    ts.ymdData = rhs.ymdData :=
  h.date.trans hrhs.ymdData.symm

end Timestamp

/-! ## The time stamps of a program -/

/-- The time stamps, and what they would be if `swap` exchanged complete values. -/
structure Timestamps where
  objects : List Timestamp
  exchanged : List Timestamp
  deriving DecidableEq

namespace Timestamps

/-- Time stamps built from time points. -/
def start (times : List ℤ) : Timestamps := ⟨times.map Timestamp.new, times.map Timestamp.new⟩

/-- `objects[i].swap(objects[j])`; the two may be one object. -/
def step (s : Timestamps) (call : ℕ × ℕ) : Option Timestamps := do
  let ts ← s.objects[call.1]?
  let rhs ← s.objects[call.2]?
  let a ← s.exchanged[call.1]?
  let b ← s.exchanged[call.2]?
  return {
    objects := (s.objects.set call.1 (ts.swap rhs).1).set call.2 (ts.swap rhs).2
    exchanged := (s.exchanged.set call.1 b).set call.2 a }

def machine : Machine Timestamps (ℕ × ℕ) := ⟨step⟩

/-- The stored fields of each object describe its time point, which is the one that complete
exchanges give it, and the dates of two objects agree when the objects say so. -/
structure Faithful (s : Timestamps) : Prop where
  describes : ∀ ts ∈ s.objects, ts.Describes
  exchanged : s.objects = s.exchanged
  sameDate : ∀ ts ∈ s.objects, ∀ rhs ∈ s.objects, ts.sameDate rhs = true ↔
    ts.year = rhs.year ∧ ts.month = rhs.month ∧ ts.day = rhs.day

/-- The call is between time stamps of the same date. -/
def OfSameDate (s : Timestamps) (call : ℕ × ℕ) : Prop :=
  ∀ ts rhs, s.objects[call.1]? = some ts → s.objects[call.2]? = some rhs → ts.sameDate rhs = true

/-- What holds as long as no date has been left behind. -/
structure Inv (s : Timestamps) : Prop where
  built : ∀ ts ∈ s.objects, ts.Built
  exchanged : s.objects = s.exchanged

variable {s s' : Timestamps} {call : ℕ × ℕ}

lemma inv_start {times : List ℤ} (h : ∀ t ∈ times, 0 ≤ t) : Inv (start times) where
  built ts hts := by
    obtain ⟨t, ht, rfl⟩ := List.mem_map.mp hts
    exact ⟨t, h t ht, rfl⟩
  exchanged := rfl

lemma Inv.faithful (h : Inv s) : Faithful s where
  describes ts hts := (h.built ts hts).describes
  exchanged := h.exchanged
  sameDate ts hts rhs hrhs := by
    rw [Timestamp.sameDate_iff (h.built ts hts) (h.built rhs hrhs), YearMonthDay.mk.injEq]
    exact Iff.rfl

/-- What a call does. -/
lemma step_cases (h : Inv s) (hstep : s.step call = some s') :
    ∃ ts rhs, s.objects[call.1]? = some ts ∧ s.objects[call.2]? = some rhs ∧ ts.Built ∧ rhs.Built ∧
      s' = ⟨(s.objects.set call.1 (ts.swap rhs).1).set call.2 (ts.swap rhs).2,
        (s.objects.set call.1 rhs).set call.2 ts⟩ := by
  simp only [step, ← h.exchanged, Option.bind_eq_bind, Option.bind_eq_some_iff] at hstep
  obtain ⟨ts, hts, rhs, hrhs, a, ha, b, hb, hnext⟩ := hstep
  obtain rfl : ts = a := Option.some_inj.mp (hts.symm.trans ha)
  obtain rfl : rhs = b := Option.some_inj.mp (hrhs.symm.trans hb)
  exact ⟨ts, rhs, hts, hrhs, h.built ts (List.mem_of_getElem? hts),
    h.built rhs (List.mem_of_getElem? hrhs), (Option.some_inj.mp hnext).symm⟩

/-- An exchange of complete values keeps the invariant. -/
lemma inv_step (h : Inv s) (hdate : OfSameDate s call) (hstep : s.step call = some s') :
    Inv s' := by
  obtain ⟨ts, rhs, hts, hrhs, hbuilt, hbuilt', rfl⟩ := step_cases h hstep
  rw [Timestamp.swap_eq ((Timestamp.sameDate_iff hbuilt hbuilt').mp (hdate ts rhs hts hrhs))]
  refine ⟨fun x hx => ?_, rfl⟩
  obtain hx | rfl := List.mem_or_eq_of_mem_set hx
  · obtain hx | rfl := List.mem_or_eq_of_mem_set hx
    · exact h.built x hx
    · exact hbuilt'
  · exact hbuilt

/-- Any other leaves a date behind. -/
lemma faithful_step_iff (h : Inv s) (hstep : s.step call = some s') :
    Faithful s' ↔ OfSameDate s call := by
  refine ⟨fun hfaithful => ?_, fun hdate => (inv_step h hdate hstep).faithful⟩
  obtain ⟨ts, rhs, hts, hrhs, hbuilt, hbuilt', rfl⟩ := step_cases h hstep
  have hdate : ts.ymdData = rhs.ymdData := by
    by_cases hij : call.1 = call.2
    · rw [hij, hrhs] at hts
      rw [Option.some_inj.mp hts]
    · -- The first object is not written a second time.
      obtain ⟨hlt, -⟩ := List.getElem?_eq_some_iff.mp hts
      refine Timestamp.ymdData_of_describes_swap hbuilt' (hfaithful.describes _ ?_)
      apply List.mem_of_getElem? (i := call.1)
      rw [List.getElem?_set_ne (Ne.symm hij), List.getElem?_set_self hlt]
  intro ts' rhs' hts' hrhs'
  obtain rfl : ts = ts' := Option.some_inj.mp (hts.symm.trans hts')
  obtain rfl : rhs = rhs' := Option.some_inj.mp (hrhs.symm.trans hrhs')
  exact (Timestamp.sameDate_iff hbuilt hbuilt').mpr hdate

/-- **The stored fields describe the time points** along a run exactly when every call of `swap` in
it is between time stamps of the same date. -/
theorem swaps_faithful_iff {times : List ℤ} (htimes : ∀ t ∈ times, 0 ≤ t) (calls : List (ℕ × ℕ)) :
    machine.Always Faithful (start times) calls ↔ machine.Each OfSameDate (start times) calls := by
  have hinv : Inv (start times) := inv_start htimes
  exact machine.always_iff_each_of_kept (D := fun _ _ => True)
    (fun _ _ _ h _ hdate hstep => inv_step h hdate hstep)
    (fun _ _ _ h _ hstep => faithful_step_iff h hstep) calls _ hinv hinv.faithful
    (machine.each_of_forall (fun _ _ => trivial) _ _)

/-- Two time stamps of one day. -/
theorem faithful_same_day :
    machine.Always Faithful (start [0, nsPerDay - 1]) [(0, 1)] := by
  refine (swaps_faithful_iff (by decide) [(0, 1)]).mpr fun _ _ => ⟨?_, trivial⟩
  intro ts rhs hts hrhs
  cases hts
  cases hrhs
  rfl

/-- The epoch and a time a day after it: the first object becomes the later one, still with the
date of the epoch. -/
theorem not_faithful_other_day :
    machine.run (start [0, nsPerDay]) [(0, 1)] = some
      { objects := [⟨nsPerDay, ⟨1970, 1, 1⟩, ⟨0, 0, 0, 0⟩⟩, ⟨0, ⟨1970, 1, 2⟩, ⟨0, 0, 0, 0⟩⟩]
        exchanged := [.new nsPerDay, .new 0] } ∧
    ¬ machine.Always Faithful (start [0, nsPerDay]) [(0, 1)] := by
  refine ⟨by decide, ?_⟩
  rintro ⟨-, hnext⟩
  have hdate := ((hnext _ rfl).describes _ (List.mem_cons_self ..)).date
  exact absurd hdate (by decide)

end Timestamps

end Coring.Logging
