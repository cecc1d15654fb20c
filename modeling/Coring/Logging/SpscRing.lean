import Coring.Framework.Ring

/-!
# The single-producer single-consumer ring

This file embeds `include/coring/detail/logging/spsc_ring.hpp`: the ring itself and what its
operations compute from the two indices they load.  The indices are 64-bit words that are never
reduced; `slot` is the place of an index in the data, padding not counted.  A slot holds a
constructed value or raw memory (`none`).

`copies` is what `batch_out` copies: it compares the two masked indices and copies the entries in
one piece or in two.  `copies_eq` says that, however the indices lie, the pieces are the entries
between the two indices in their order.
-/

namespace Coring.Logging

/-- `spsc_ring`. -/
structure SpscRing (α : Type) where
  capacity : BitVec 64
  data : ℕ → Option α
  indexWrite : BitVec 64
  indexRead : BitVec 64

namespace SpscRing

variable {α : Type}

/-- `k_padding`, for values of a given size and cache lines of 64 bytes. -/
def kPadding (size : ℕ) : BitVec 64 := BitVec.ofNat 64 (63 / size + 1)

/-- The constructor. -/
def new (size : ℕ) (capacity : BitVec 64) : SpscRing α where
  capacity :=
    if capacity > BitVec.allOnes 64 - 2 * kPadding size then
      BitVec.allOnes 64 - 2 * kPadding size
    else capacity
  data := fun _ => none
  indexWrite := 0
  indexRead := 0

/-- `mask_`. -/
def mask (r : SpscRing α) : BitVec 64 := r.capacity - 1

/-- The place of an index in the data. -/
def slot (r : SpscRing α) (i : BitVec 64) : ℕ := (i &&& r.mask).toNat

/-- `free_entries`, as `emplace` and `try_emplace` compute it. -/
def freeEntries (r : SpscRing α) (readIndex writeIndex : BitVec 64) : BitVec 64 :=
  r.mask + readIndex - writeIndex

/-- The copies of `batch_out` for the indices it has loaded: the place in the vector, counted
from its old end, and the slot copied to it. -/
def copies (r : SpscRing α) (readIndex writeIndex : BitVec 64) : List (ℕ × ℕ) :=
  let entries := writeIndex - readIndex
  let start := readIndex &&& r.mask
  if writeIndex &&& r.mask > start then
    (List.range entries.toNat).map fun i => (i, start.toNat + i)
  else
    let part1len := r.capacity - start
    let part2len := entries - part1len
    (List.range part1len.toNat).map (fun i => (i, start.toNat + i)) ++
      (List.range part2len.toNat).map fun i => ((entries - part2len).toNat + i, i)

/-! ## Capacities that are a power of two -/

section PowerOfTwo

variable {k : ℕ} {r : SpscRing α} {n m : ℕ}

/-- The capacity is `2 ^ k`, from two on. -/
structure IsPow (r : SpscRing α) (k : ℕ) : Prop where
  pos : 1 ≤ k
  lt : k < 64
  capacity : r.capacity = BitVec.ofNat 64 (2 ^ k)

lemma kPadding_toNat_le (size : ℕ) : (kPadding size).toNat ≤ 64 := by
  have hle : 63 / size ≤ 63 := Nat.div_le_self ..
  rw [kPadding, BitVec.toNat_ofNat]
  exact Nat.le_trans (Nat.mod_le ..) (by omega)

/-- The largest capacity that the constructor leaves as it is. -/
lemma toNat_clamp (size : ℕ) : (BitVec.allOnes 64 - 2 * kPadding size).toNat
    = 2 ^ 64 - 1 - 2 * (kPadding size).toNat := by
  have hpad := kPadding_toNat_le size
  have htwo : (2 * kPadding size).toNat = 2 * (kPadding size).toNat := by
    rw [BitVec.toNat_mul]
    exact Nat.mod_eq_of_lt (show 2 * (kPadding size).toNat < 2 ^ 64 by omega)
  rw [BitVec.toNat_sub_of_le, BitVec.toNat_allOnes, htwo]
  rw [BitVec.le_def, BitVec.toNat_allOnes, htwo]
  omega

/-- No power of two is cut down by the constructor. -/
lemma isPow_new (size : ℕ) (h₁ : 1 ≤ k) (h₂ : k < 64) :
    (new size (BitVec.ofNat 64 (2 ^ k)) : SpscRing α).IsPow k := by
  refine ⟨h₁, h₂, if_neg ?_⟩
  have hpad := kPadding_toNat_le size
  have hle : 2 ^ k ≤ 2 ^ 63 := Nat.pow_le_pow_right (by decide) (by omega)
  rw [gt_iff_lt, BitVec.lt_def, toNat_clamp, BitVec.toNat_ofNat, Nat.mod_eq_of_lt (by omega)]
  omega

namespace IsPow

lemma two_le (h : r.IsPow k) : 2 ≤ 2 ^ k := Nat.le_self_pow (by have := h.pos; omega) 2

lemma pow_lt (h : r.IsPow k) : 2 ^ k < 2 ^ 64 := Nat.pow_lt_pow_right (by decide) h.lt

lemma mask_eq (h : r.IsPow k) : r.mask = BitVec.ofNat 64 (2 ^ k - 1) := by
  have hlt := h.pow_lt
  have hpos := h.two_le
  rw [mask, h.capacity]
  apply BitVec.eq_of_toNat_eq
  have hle : 1 ≤ BitVec.ofNat 64 (2 ^ k) := by
    rw [BitVec.le_def, BitVec.toNat_ofNat, Nat.mod_eq_of_lt hlt]
    exact Nat.le_of_lt hpos
  rw [BitVec.toNat_sub_of_le hle, BitVec.toNat_ofNat, BitVec.toNat_ofNat, Nat.mod_eq_of_lt hlt,
    Nat.mod_eq_of_lt (by omega)]
  rfl

lemma slot_eq (h : r.IsPow k) (n : ℕ) : r.slot (counter 64 n) = n % 2 ^ k := by
  have hmask := maskedSlot_counter (Nat.le_of_lt h.lt) n
  rw [maskedSlot, ← h.mask_eq] at hmask
  exact hmask

/-- The free entries between two indices, one slot being left unused. -/
lemma freeEntries_eq (h : r.IsPow k) (hle : m ≤ n) (hroom : n ≤ m + (2 ^ k - 1)) :
    (r.freeEntries (counter 64 m) (counter 64 n)).toNat = m + (2 ^ k - 1) - n := by
  have hlt := h.pow_lt
  have hmask : r.mask = counter 64 (2 ^ k - 1) := h.mask_eq
  rw [freeEntries, hmask, BitVec.add_comm, ← counter_add, counter_sub hroom (by omega)]

lemma freeEntries_eq_zero_iff (h : r.IsPow k) (hle : m ≤ n) (hroom : n ≤ m + (2 ^ k - 1)) :
    r.freeEntries (counter 64 m) (counter 64 n) = 0 ↔ n = m + (2 ^ k - 1) := by
  rw [← BitVec.toNat_inj, h.freeEntries_eq hle hroom]
  change m + (2 ^ k - 1) - n = 0 ↔ _
  omega

end IsPow

/-- Adding less than a whole round does not pass the end of the ring, or it passes it once. -/
lemma add_mod_of_lt {c : ℕ} (i : ℕ) (h : m % c + i < c) : (m + i) % c = m % c + i := by
  rw [Nat.add_mod, Nat.mod_eq_of_lt (show i < c by omega), Nat.mod_eq_of_lt h]

lemma add_mod_of_ge {c : ℕ} (i : ℕ) (hi : i < c) (h : c ≤ m % c + i) :
    (m + i) % c = m % c + i - c := by
  have hm : m % c < c := Nat.mod_lt _ (by omega)
  rw [Nat.add_mod, Nat.mod_eq_of_lt hi, Nat.mod_eq_sub_mod h, Nat.mod_eq_of_lt (by omega)]

/-- **What `batch_out` copies**, in one piece or in two: the entries between the indices. -/
lemma IsPow.copies_eq (h : r.IsPow k) {e : ℕ} (hpos : 0 < e) (hroom : e ≤ 2 ^ k - 1) :
    r.copies (counter 64 m) (counter 64 (m + e))
      = (List.range e).map fun i => (i, (m + i) % 2 ^ k) := by
  have hpow := h.pow_lt
  have hentries : (counter 64 (m + e) - counter 64 m).toNat = e := by
    rw [counter_sub (Nat.le_add_right ..) (by omega), Nat.add_sub_cancel_left]
  have hstart : (counter 64 m &&& r.mask).toNat = m % 2 ^ k := h.slot_eq m
  have hend : (counter 64 (m + e) &&& r.mask).toNat = (m + e) % 2 ^ k := h.slot_eq _
  have hm : m % 2 ^ k < 2 ^ k := Nat.mod_lt _ (Nat.two_pow_pos k)
  simp only [copies, gt_iff_lt, BitVec.lt_def, hstart, hend, hentries]
  by_cases hcase : m % 2 ^ k + e < 2 ^ k
  · rw [if_pos (by rw [add_mod_of_lt _ hcase]; omega)]
    refine List.map_congr_left fun i hi => ?_
    have hi := List.mem_range.mp hi
    rw [add_mod_of_lt _ (by omega)]
  · have hcapacity : r.capacity.toNat = 2 ^ k := by
      rw [h.capacity, BitVec.toNat_ofNat, Nat.mod_eq_of_lt hpow]
    have hpart1 : (r.capacity - (counter 64 m &&& r.mask)).toNat = 2 ^ k - m % 2 ^ k := by
      rw [BitVec.toNat_sub_of_le (by rw [BitVec.le_def, hstart, hcapacity]; omega), hstart,
        hcapacity]
    have hpart2 : (counter 64 (m + e) - counter 64 m
        - (r.capacity - (counter 64 m &&& r.mask))).toNat = e - (2 ^ k - m % 2 ^ k) := by
      rw [BitVec.toNat_sub_of_le (by rw [BitVec.le_def, hentries, hpart1]; omega), hentries,
        hpart1]
    have hback : (counter 64 (m + e) - counter 64 m - (counter 64 (m + e) - counter 64 m
        - (r.capacity - (counter 64 m &&& r.mask)))).toNat = 2 ^ k - m % 2 ^ k := by
      rw [BitVec.toNat_sub_of_le (by rw [BitVec.le_def, hentries, hpart2]; omega), hentries,
        hpart2]
      omega
    rw [if_neg (by rw [add_mod_of_ge _ (by omega) (by omega)]; omega), hpart1, hpart2, hback]
    -- The second piece begins at slot `0`, one round after the first.
    have hsplit : e = (2 ^ k - m % 2 ^ k) + (e - (2 ^ k - m % 2 ^ k)) := by omega
    conv_rhs => rw [hsplit, List.range_add, List.map_append, List.map_map]
    congr 1
    · refine List.map_congr_left fun i hi => ?_
      have hi := List.mem_range.mp hi
      rw [add_mod_of_lt _ (by omega)]
    · refine List.map_congr_left fun i hi => ?_
      have hi := List.mem_range.mp hi
      rw [Function.comp_apply, add_mod_of_ge _ (by omega) (by omega)]
      congr 1
      omega

end PowerOfTwo

end SpscRing

end Coring.Logging
