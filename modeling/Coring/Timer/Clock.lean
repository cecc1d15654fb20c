import Mathlib.Order.BoundedOrder.Basic
import Mathlib.Order.Lattice
import Mathlib.Algebra.Group.Nat.Defs
import Mathlib.Algebra.Order.Group.Int
import Mathlib.Data.Int.Notation

/-!
# Machine integers and the clock

The timer counts microseconds in a `long`; the system clock counts nanoseconds in one.  A
`Long` is an integer in that range, with the arithmetic of the source brought back into it by
`Long.wrap`.  `stamp` is the reading of the clock the timer works with.

`makeTimespec` is the conversion of a duration to what the kernel is given, and `expiry` the
time at which a kernel timeout armed with it completes: the kernel refuses a negative
timespec, and the request then completes at once.
-/

namespace Coring

/-- A 64-bit signed integer. -/
def Long := { x : ℤ // -2 ^ 63 ≤ x ∧ x < 2 ^ 63 }

namespace Long

instance : LinearOrder Long :=
  inferInstanceAs (LinearOrder { x : ℤ // -2 ^ 63 ≤ x ∧ x < 2 ^ 63 })

instance : BoundedOrder Long where
  top := ⟨2 ^ 63 - 1, by decide⟩
  le_top a := Subtype.mk_le_mk.mpr (Int.le_sub_one_of_lt a.2.2)
  bot := ⟨-2 ^ 63, by decide⟩
  bot_le a := Subtype.mk_le_mk.mpr a.2.1

lemma bmod_bounds (x : ℤ) : -2 ^ 63 ≤ x.bmod (2 ^ 64) ∧ x.bmod (2 ^ 64) < 2 ^ 63 := by
  have h₁ := Int.le_bmod (x := x) (m := 2 ^ 64) (by decide)
  have h₂ := Int.bmod_lt (x := x) (m := 2 ^ 64) (by decide)
  constructor
  · simpa using h₁
  · simpa using h₂

/-- The integer in range that a 64-bit register holds for `x`. -/
def wrap (x : ℤ) : Long := ⟨x.bmod (2 ^ 64), bmod_bounds x⟩

/-- The range of a `long`. -/
def InRange (x : ℤ) : Prop := -2 ^ 63 ≤ x ∧ x < 2 ^ 63

instance (x : ℤ) : Decidable (InRange x) := inferInstanceAs (Decidable (_ ∧ _))

lemma wrap_of_inRange {x : ℤ} (h : InRange x) : (wrap x).1 = x := by
  obtain ⟨h₁, h₂⟩ := h
  refine Int.bmod_eq_of_le ?_ ?_
  · simpa using h₁
  · simpa using h₂

/-- Wrapping makes a number larger only if it is below the range. -/
lemma wrap_le {x : ℤ} (h : -2 ^ 63 ≤ x) : (wrap x).1 ≤ x := by
  by_cases hx : x < 2 ^ 63
  · exact (wrap_of_inRange ⟨h, hx⟩).le
  · exact (wrap x).2.2.le.trans (Int.not_lt.mp hx)

end Long

/-! ## The clock -/

/-- `duration_cast<microseconds>` of a number of nanoseconds. -/
def micros (ns : ℤ) : ℤ := ns.tdiv 1000

lemma micros_eq (ns : ℤ) : micros ns = if 0 ≤ ns then ns / 1000 else -(-ns / 1000) := by
  split
  · next h => exact Int.tdiv_eq_ediv_of_nonneg h
  · next h =>
    have hneg : 0 ≤ -ns := by omega
    rw [micros, ← Int.tdiv_eq_ediv_of_nonneg hneg, Int.neg_tdiv, Int.neg_neg]

lemma micros_mono {c d : ℤ} (h : c ≤ d) : micros c ≤ micros d := by
  rw [micros_eq, micros_eq]
  split <;> split <;> omega

/-- Whole microseconds added to the clock show in its reading. -/
lemma micros_add_le (c us : ℤ) (h : 0 ≤ us) : micros (c + us * 1000) ≤ micros c + us := by
  rw [micros_eq, micros_eq]
  split <;> split <;> omega

/-- `duration_cast<microseconds>(system_clock::now().time_since_epoch())`. -/
def stamp (clock : Long) : Long :=
  ⟨micros clock.1, by
    have h := clock.2
    rw [micros_eq]
    split <;> omega⟩

lemma stamp_lt_top (clock : Long) : stamp clock < ⊤ := by
  have h := clock.2
  change micros clock.1 < 2 ^ 63 - 1
  rw [micros_eq]
  split <;> omega

/-! ## Kernel timeouts -/

/-- `__kernel_timespec`. -/
structure Timespec where
  tvSec : ℤ
  tvNsec : ℤ
  deriving Repr, DecidableEq

/-- `make_timespec` of a duration in microseconds. -/
def makeTimespec (duration : Long) : Timespec :=
  let durationNs := Long.wrap (duration.1 * 1000)
  ⟨durationNs.1.tdiv 1000000000, durationNs.1.tmod 1000000000⟩

/-- When a kernel timeout armed at `a` with the timespec completes, in nanoseconds. -/
def Timespec.expiry (ts : Timespec) (a : Long) : ℤ :=
  if ts.tvSec < 0 ∨ ts.tvNsec < 0 then a.1
  else a.1 + (ts.tvSec * 1000000000 + ts.tvNsec)

/-- A timeout never lasts longer than the duration it was made of. -/
lemma expiry_makeTimespec_le {d : Long} (hd : 0 ≤ d.1) (a : Long) :
    (makeTimespec d).expiry a ≤ a.1 + d.1 * 1000 := by
  have hwrap : (Long.wrap (d.1 * 1000)).1 ≤ d.1 * 1000 := Long.wrap_le (by omega)
  have hsum := Int.tdiv_mul_add_tmod (Long.wrap (d.1 * 1000)).1 1000000000
  by_cases hneg : (makeTimespec d).tvSec < 0 ∨ (makeTimespec d).tvNsec < 0
  · rw [Timespec.expiry, if_pos hneg]
    omega
  · rw [Timespec.expiry, if_neg hneg]
    simp only [makeTimespec]
    omega

end Coring
