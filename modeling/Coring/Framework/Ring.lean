import Mathlib.Data.Nat.Bitwise
import Mathlib.Data.Nat.Factorization.Basic
import Mathlib.Data.Nat.ModEq
import Mathlib.Logic.Function.Basic

/-!
# Rings with free-running counters

A ring buffer of `2 ^ k` slots is addressed by counters that are never reduced: they run
through all values of a machine word and wrap around at its end, and the slot of a counter is
its remainder, computed with a mask.  A counter is presented by the natural number of
increments it has seen, `counter w n`, which does not wrap; the lemmas here say what the word
operations on counters compute in terms of these numbers.

`Holds` says what is stored between two counters.  Storing behind the last entry of a ring
that is not full keeps what is stored (`Holds.push`), and dropping entries at the front keeps
the rest (`Holds.drop`).
-/

namespace Coring

/-! ## Counters -/

/-- The word a counter holds after `n` increments. -/
def counter (w n : ℕ) : BitVec w := BitVec.ofNat w n

/-- The slot of a counter in a ring of `2 ^ k` slots: `i & mask`. -/
def maskedSlot {w : ℕ} (k : ℕ) (i : BitVec w) : ℕ := (i &&& BitVec.ofNat w (2 ^ k - 1)).toNat

section Counter

variable {w k n m : ℕ}

lemma counter_toNat (i : BitVec w) : counter w i.toNat = i := by
  rw [counter, BitVec.ofNat_toNat, BitVec.setWidth_eq]

lemma counter_add (n m : ℕ) : counter w (n + m) = counter w n + counter w m :=
  BitVec.ofNat_add ..

lemma counter_succ (n : ℕ) : counter w (n + 1) = counter w n + 1 := counter_add n 1

/-- The distance of two counters, if it fits into a word. -/
lemma counter_sub (h : m ≤ n) (hlt : n - m < 2 ^ w) :
    (counter w n - counter w m).toNat = n - m := by
  obtain ⟨d, rfl⟩ := Nat.exists_eq_add_of_le h
  rw [Nat.add_sub_cancel_left] at hlt ⊢
  rw [counter_add, BitVec.add_comm, BitVec.add_sub_cancel, counter, BitVec.toNat_ofNat,
    Nat.mod_eq_of_lt hlt]

/-- Counters less than a word apart are equal only if they have seen equally many increments. -/
lemma counter_inj (h : m ≤ n) (hlt : n - m < 2 ^ w) : counter w m = counter w n ↔ m = n := by
  constructor
  · intro heq
    have hsub := counter_sub h hlt
    rw [heq, BitVec.sub_self, BitVec.toNat_zero] at hsub
    omega
  · rintro rfl
    rfl

lemma maskedSlot_counter (hk : k ≤ w) (n : ℕ) : maskedSlot k (counter w n) = n % 2 ^ k := by
  have hpos : 0 < 2 ^ k := Nat.two_pow_pos k
  have hle : 2 ^ k ≤ 2 ^ w := Nat.pow_le_pow_right (by decide) hk
  rw [maskedSlot, counter, BitVec.toNat_and, BitVec.toNat_ofNat, BitVec.toNat_ofNat,
    Nat.mod_eq_of_lt (show 2 ^ k - 1 < 2 ^ w by omega), Nat.and_two_pow_sub_one_eq_mod,
    Nat.mod_mod_of_dvd _ (Nat.pow_dvd_pow 2 hk)]

end Counter

/-- A capacity that is no power of two has a mask without one of the bits below its top. -/
lemma exists_masked_out {n : ℕ} (hn : n ≠ 0) (hpow : ∀ k, n ≠ 2 ^ k) :
    ∃ b, 2 ^ b < n - 1 ∧ 2 ^ b &&& (n - 1) = 0 := by
  obtain ⟨b, q, hodd, hq⟩ := Nat.exists_eq_two_pow_mul_odd hn
  obtain ⟨p, rfl⟩ := hodd
  have hpos : 0 < 2 ^ b := Nat.two_pow_pos b
  have hp : 0 < p := by
    by_contra hzero
    obtain rfl : p = 0 := by omega
    exact hpow b (by rw [hq, Nat.mul_zero, Nat.zero_add, Nat.mul_one])
  have hle : 2 ^ b * 1 ≤ 2 ^ b * p := Nat.mul_le_mul_left _ hp
  -- The bits below `b` are ones, and those from `b` on are `2 * p`.
  have hmask : n - 1 = 2 ^ b * (2 * p) + (2 ^ b - 1) := by
    rw [hq, Nat.mul_add, Nat.mul_one]
    omega
  refine ⟨b, ?_, ?_⟩
  · have htwo : 2 ^ b * (2 * p) = 2 * (2 ^ b * p) := Nat.mul_left_comm ..
    omega
  · have hbit : (n - 1).testBit b = false := by
      rw [Nat.testBit_eq_decide_div_mod_eq, hmask, Nat.mul_add_div hpos,
        Nat.div_eq_of_lt (by omega), Nat.add_zero, Nat.mul_mod_right]
      rfl
    rw [Nat.and_comm, Nat.and_two_pow, hbit, Bool.toNat_false, Nat.zero_mul]

/-! ## Contents -/

/-- Numbers less than `cap` apart have different slots. -/
lemma slot_ne {cap i j : ℕ} (hij : i < j) (hlt : j - i < cap) : i % cap ≠ j % cap := by
  intro heq
  have hdvd : cap ∣ j - i := (Nat.modEq_iff_dvd' hij.le).mp heq
  have hle := Nat.le_of_dvd (by omega) hdvd
  omega

section Holds

variable {α : Type*} {cap base : ℕ} {slots : ℕ → α} {l : List α}

/-- From the counter `base` on, the slots hold the entries `l`. -/
def Holds (cap : ℕ) (slots : ℕ → α) (base : ℕ) (l : List α) : Prop :=
  ∀ (i : ℕ) (a : α), l[i]? = some a → slots ((base + i) % cap) = a

lemma holds_nil (cap : ℕ) (slots : ℕ → α) (base : ℕ) : Holds cap slots base [] := by
  intro i a h
  cases h

/-- Reading the slots one after the other. -/
lemma Holds.map_range (h : Holds cap slots base l) :
    (List.range l.length).map (fun i => slots ((base + i) % cap)) = l := by
  apply List.ext_getElem
  · rw [List.length_map, List.length_range]
  · intro i hi hi'
    rw [List.getElem_map, List.getElem_range]
    exact h i _ (List.getElem?_eq_getElem hi')

/-- Whatever the slots hold, they hold what can be read from them. -/
lemma holds_map_range (cap : ℕ) (slots : ℕ → α) (base n : ℕ) :
    Holds cap slots base ((List.range n).map fun i => slots ((base + i) % cap)) := by
  intro i a hi
  obtain ⟨hlt, hget⟩ := List.getElem?_eq_some_iff.mp hi
  rwa [List.getElem_map, List.getElem_range] at hget

lemma Holds.drop (h : Holds cap slots base l) (n : ℕ) :
    Holds cap slots (base + n) (l.drop n) := by
  intro i a hi
  rw [List.getElem?_drop] at hi
  rw [Nat.add_assoc]
  exact h (n + i) a hi

/-- A slot beyond the entries may be written. -/
lemma Holds.frame (h : Holds cap slots base l) {n : ℕ} (hn : base + l.length ≤ n)
    (hcap : n < base + cap) (b : α) : Holds cap (Function.update slots (n % cap) b) base l := by
  intro i a hi
  obtain ⟨hlt, -⟩ := List.getElem?_eq_some_iff.mp hi
  rw [Function.update_of_ne (slot_ne (by omega) (by omega))]
  exact h i a hi

/-- An entry that stands in the slot behind the last one may be counted in. -/
lemma Holds.snoc (h : Holds cap slots base l) {b : α}
    (hb : slots ((base + l.length) % cap) = b) : Holds cap slots base (l ++ [b]) := by
  intro i a hi
  by_cases hlt : i < l.length
  · rw [List.getElem?_append_left hlt] at hi
    exact h i a hi
  · obtain ⟨hlen, -⟩ := List.getElem?_eq_some_iff.mp hi
    have hlen' : i < l.length + 1 := by simpa using hlen
    obtain rfl : i = l.length := by omega
    simp only [List.getElem?_concat_length, Option.some_inj] at hi
    rw [hb, hi]

lemma Holds.push (h : Holds cap slots base l) (hlen : l.length < cap) (b : α) :
    Holds cap (Function.update slots ((base + l.length) % cap) b) base (l ++ [b]) :=
  (h.frame (Nat.le_refl _) (by omega) b).snoc (Function.update_self ..)

/-- The slot of the first entry may be written when that entry is dropped: it is the slot behind
the last place of the ring. -/
lemma Holds.pop (h : Holds cap slots base l) (hpos : 0 < l.length) (hlen : l.length ≤ cap) (b : α) :
    Holds cap (Function.update slots (base % cap) b) (base + 1) (l.drop 1) := by
  rw [← Nat.add_mod_right base cap]
  refine (h.drop 1).frame ?_ (by omega) b
  rw [List.length_drop]
  omega

end Holds

end Coring
