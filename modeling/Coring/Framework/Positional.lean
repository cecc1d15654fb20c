import Mathlib.Algebra.Group.Nat.Defs
import Mathlib.Data.Nat.Digits.Defs

/-!
# Words and their bytes

A word of `n` bytes lies in memory with its least significant byte first or last.  `wordBytes`
is what memory holds of a word and `wordOf` the word it is read as, for either order; the two are
inverse to each other on lists of `n` bytes (`wordOf_wordBytes`, `wordBytes_wordOf`).

Reversing the bytes of a word turns one order into the other.  `toBigEndian` does so on a machine
that is not big endian itself, and its two lemmas are all a program with a wire format needs: what
the machine stores of a converted word is the big endian form of the word, and reading big endian
bytes and converting gives the word they denote.
-/

namespace Coring

/-! ## Natural numbers -/

/-- The `n` lowest bytes of `v`, the least significant first. -/
def leBytes : ℕ → ℕ → List UInt8
  | 0, _ => []
  | n + 1, v => UInt8.ofNat v :: leBytes n (v / 256)

/-- The number with the bytes `l`, the least significant first. -/
def leNat (l : List UInt8) : ℕ := Nat.ofDigits 256 (l.map UInt8.toNat)

@[simp] lemma length_leBytes (n v : ℕ) : (leBytes n v).length = n := by
  induction n generalizing v with
  | zero => rfl
  | succ n ih => rw [leBytes, List.length_cons, ih]

/-- Each byte on its own. -/
lemma leBytes_eq_map (n v : ℕ) :
    leBytes n v = (List.range n).map fun i => UInt8.ofNat (v / 256 ^ i) := by
  induction n generalizing v with
  | zero => rfl
  | succ n ih =>
    rw [leBytes, ih, List.range_succ_eq_map, List.map_cons, List.map_map, Nat.pow_zero, Nat.div_one]
    congr 1
    apply List.map_congr_left
    intro i _
    rw [Function.comp_apply, Nat.pow_succ', Nat.div_div_eq_div_mul]

lemma leNat_cons (a : UInt8) (l : List UInt8) : leNat (a :: l) = a.toNat + 256 * leNat l := by
  rw [leNat, List.map_cons, Nat.ofDigits_cons, leNat]

lemma leNat_lt (l : List UInt8) : leNat l < 256 ^ l.length := by
  have hdigits : ∀ d ∈ l.map UInt8.toNat, d < 256 := by
    intro d hd
    obtain ⟨a, -, rfl⟩ := List.mem_map.mp hd
    exact a.toNat_lt
  have hlt := Nat.ofDigits_lt_base_pow_length (by decide) hdigits
  rwa [List.length_map] at hlt

lemma leNat_leBytes (n v : ℕ) : leNat (leBytes n v) = v % 256 ^ n := by
  induction n generalizing v with
  | zero => rw [Nat.pow_zero, Nat.mod_one]; rfl
  | succ n ih =>
    have hbyte : (UInt8.ofNat v).toNat = v % 256 := UInt8.toNat_ofNat' ..
    rw [leBytes, leNat_cons, ih, hbyte, Nat.pow_succ, Nat.mul_comm (256 ^ n) 256, Nat.mod_mul]

lemma leBytes_leNat (l : List UInt8) : leBytes l.length (leNat l) = l := by
  induction l with
  | nil => rfl
  | cons a l ih =>
    have hlt : a.toNat < 256 := a.toNat_lt
    have hhead : UInt8.ofNat (leNat (a :: l)) = a := by
      apply UInt8.toNat_inj.mp
      rw [UInt8.toNat_ofNat', leNat_cons]
      omega
    have htail : leNat (a :: l) / 256 = leNat l := by
      rw [leNat_cons]
      omega
    rw [List.length_cons, leBytes, hhead, htail, ih]

/-- The number with the bytes `l`, the most significant first. -/
def beNat (l : List UInt8) : ℕ := leNat l.reverse

/-! ## Words -/

/-- Which byte of a word lies first in memory: the least or the most significant. -/
inductive ByteOrder
  | little
  | big
  deriving Repr, DecidableEq

section Words

variable {n : ℕ}

/-- What memory holds of a word. -/
def wordBytes (x : BitVec (8 * n)) : ByteOrder → List UInt8
  | .little => leBytes n x.toNat
  | .big => (leBytes n x.toNat).reverse

/-- The word that memory is read as. -/
def wordOf (n : ℕ) (l : List UInt8) : ByteOrder → BitVec (8 * n)
  | .little => BitVec.ofNat _ (leNat l)
  | .big => BitVec.ofNat _ (beNat l)

@[simp] lemma length_wordBytes (x : BitVec (8 * n)) (o : ByteOrder) :
    (wordBytes x o).length = n := by
  cases o with
  | little => rw [wordBytes, length_leBytes]
  | big => rw [wordBytes, List.length_reverse, length_leBytes]

lemma two_pow_eight_mul (n : ℕ) : 2 ^ (8 * n) = 256 ^ n := by
  rw [Nat.pow_mul]

lemma wordOf_wordBytes (x : BitVec (8 * n)) (o : ByteOrder) : wordOf n (wordBytes x o) o = x := by
  have hnum : BitVec.ofNat (8 * n) (leNat (leBytes n x.toNat)) = x := by
    apply BitVec.eq_of_toNat_eq
    rw [leNat_leBytes, BitVec.toNat_ofNat, ← two_pow_eight_mul, Nat.mod_mod,
      Nat.mod_eq_of_lt x.isLt]
  cases o with
  | little => exact hnum
  | big => rwa [wordOf, wordBytes, beNat, List.reverse_reverse]

lemma wordBytes_wordOf {l : List UInt8} (hl : l.length = n) (o : ByteOrder) :
    wordBytes (wordOf n l o) o = l := by
  have hnum : ∀ r : List UInt8, r.length = n →
      leBytes n (BitVec.ofNat (8 * n) (leNat r)).toNat = r := by
    intro r hr
    have hlt := leNat_lt r
    rw [BitVec.toNat_ofNat, two_pow_eight_mul, ← hr, Nat.mod_eq_of_lt hlt, leBytes_leNat]
  cases o with
  | little => exact hnum l hl
  | big =>
    rw [wordBytes, wordOf, beNat, hnum _ (by rw [List.length_reverse, hl]), List.reverse_reverse]

/-- The word with the bytes in the opposite order. -/
def byteSwap (x : BitVec (8 * n)) : BitVec (8 * n) := wordOf n (wordBytes x .little) .big

/-- The conversion between the order of a machine and big endian, which is its own inverse. -/
def toBigEndian (host : ByteOrder) (x : BitVec (8 * n)) : BitVec (8 * n) :=
  match host with
  | .little => byteSwap x
  | .big => x

/-- What the machine stores of a converted word is its big endian form. -/
lemma wordBytes_toBigEndian (host : ByteOrder) (x : BitVec (8 * n)) :
    wordBytes (toBigEndian host x) host = wordBytes x .big := by
  cases host with
  | big => rfl
  | little =>
    have hstored := wordBytes_wordOf (length_wordBytes x .little) .big
    rw [toBigEndian, byteSwap, wordBytes, ← List.reverse_inj]
    exact hstored.trans (by rw [wordBytes, wordBytes, List.reverse_reverse])

/-- Big endian bytes that the machine reads and converts. -/
lemma toBigEndian_wordOf (host : ByteOrder) {l : List UInt8} (hl : l.length = n) :
    toBigEndian host (wordOf n l host) = wordOf n l .big := by
  cases host with
  | big => rfl
  | little => rw [toBigEndian, byteSwap, wordBytes_wordOf hl]

lemma toBigEndian_involutive (host : ByteOrder) (x : BitVec (8 * n)) :
    toBigEndian host (toBigEndian host x) = x := by
  have hread := toBigEndian_wordOf host (length_wordBytes (toBigEndian host x) host)
  rwa [wordOf_wordBytes, wordBytes_toBigEndian, wordOf_wordBytes] at hread

end Words

end Coring
