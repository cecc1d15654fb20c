import Coring.Framework.Positional
import Mathlib.Data.Int.Notation

/-!
# Integers in network byte order

`include/coring/endian.hpp` overloads `host_to_network` and `network_to_host` for the signed and
unsigned integers of one, two, four and eight bytes.  An `IntValue` is a value of one of these
types with the proof that the type holds it.  Between a signed type and the unsigned one of its
width, which is what the functions of `endian.h` are called with, C++ converts by keeping the
bits; `IntValue.bits` and `IntValue.ofBits` are this conversion.

The host may be of either byte order.  What a program stores of a converted integer is its big
endian form on both (`memory_hostToNetwork`), and big endian bytes that are read and converted
give the value they denote (`networkToHost_ofMemory`).
-/

namespace Coring

inductive Width
  | w8
  | w16
  | w32
  | w64
  deriving Repr, DecidableEq

/-- The integer types of `endian.hpp`. -/
structure IntType where
  signed : Bool
  width : Width
  deriving Repr, DecidableEq

namespace IntType

/-- `sizeof`. -/
def bytes (t : IntType) : ℕ :=
  match t.width with
  | .w8 => 1
  | .w16 => 2
  | .w32 => 4
  | .w64 => 8

lemma bytes_pos (t : IntType) : 0 < t.bytes := by
  unfold bytes
  split <;> decide

/-- The type has the value. -/
def Holds (t : IntType) (v : ℤ) : Prop :=
  if t.signed then -2 ^ (8 * t.bytes - 1) ≤ v ∧ v < 2 ^ (8 * t.bytes - 1)
  else 0 ≤ v ∧ v < 2 ^ (8 * t.bytes)

instance (t : IntType) (v : ℤ) : Decidable (t.Holds v) :=
  inferInstanceAs (Decidable (if t.signed then
    -2 ^ (8 * t.bytes - 1) ≤ v ∧ v < 2 ^ (8 * t.bytes - 1) else 0 ≤ v ∧ v < 2 ^ (8 * t.bytes)))

end IntType

/-- A value of an integer type. -/
structure IntValue where
  type : IntType
  val : ℤ
  holds : type.Holds val
  deriving DecidableEq

namespace IntValue

/-- The value of type `t` with these bits. -/
def ofBits (t : IntType) (x : BitVec (8 * t.bytes)) : IntValue where
  type := t
  val := if t.signed then x.toInt else x.toNat
  holds := by
    have hpos : 0 < 8 * t.bytes := Nat.mul_pos (by decide) t.bytes_pos
    unfold IntType.Holds
    split
    · exact ⟨BitVec.le_toInt x, BitVec.toInt_lt⟩
    · refine ⟨Int.natCast_nonneg _, ?_⟩
      exact_mod_cast x.isLt

/-- Its bits. -/
def bits (v : IntValue) : BitVec (8 * v.type.bytes) := BitVec.ofInt _ v.val

lemma bits_ofBits (t : IntType) (x : BitVec (8 * t.bytes)) : (ofBits t x).bits = x := by
  change BitVec.ofInt _ (if t.signed then x.toInt else x.toNat) = x
  split
  · exact BitVec.ofInt_toInt
  · rw [BitVec.ofInt_natCast, BitVec.ofNat_toNat, BitVec.setWidth_eq]

lemma ofBits_bits (v : IntValue) : ofBits v.type v.bits = v := by
  obtain ⟨t, val, hval⟩ := v
  have hpos : 0 < 8 * t.bytes := Nat.mul_pos (by decide) t.bytes_pos
  have heq : (if t.signed then (BitVec.ofInt (8 * t.bytes) val).toInt
      else ((BitVec.ofInt (8 * t.bytes) val).toNat : ℤ)) = val := by
    unfold IntType.Holds at hval
    split
    · next hs =>
      rw [if_pos hs] at hval
      exact BitVec.toInt_ofInt_eq_self hpos hval.1 hval.2
    · next hs =>
      rw [if_neg hs] at hval
      rw [BitVec.toNat_ofInt]
      have hcast : ((2 ^ (8 * t.bytes) : ℕ) : ℤ) = 2 ^ (8 * t.bytes) := by norm_cast
      rw [hcast, Int.emod_eq_of_lt hval.1 hval.2]
      exact Int.toNat_of_nonneg hval.1
  simp only [ofBits, bits, heq]

/-- What memory holds of it. -/
def memory (host : ByteOrder) (v : IntValue) : List UInt8 := wordBytes v.bits host

lemma memory_ofBits (host : ByteOrder) (t : IntType) (x : BitVec (8 * t.bytes)) :
    (ofBits t x).memory host = wordBytes x host :=
  congrArg (wordBytes · host) (bits_ofBits t x)

/-- The value of type `t` that memory is read as. -/
def ofMemory (host : ByteOrder) (t : IntType) (l : List UInt8) : IntValue :=
  ofBits t (wordOf t.bytes l host)

/-- The value of type `t` that big endian bytes denote. -/
def bigEndian (t : IntType) (l : List UInt8) : IntValue := ofBits t (wordOf t.bytes l .big)

/-- The big endian form. -/
def networkBytes (v : IntValue) : List UInt8 := wordBytes v.bits .big

@[simp] lemma length_networkBytes (v : IntValue) : v.networkBytes.length = v.type.bytes :=
  length_wordBytes ..

lemma bigEndian_networkBytes (v : IntValue) : bigEndian v.type v.networkBytes = v := by
  rw [bigEndian, networkBytes, wordOf_wordBytes, ofBits_bits]

end IntValue

/-! ## The conversions -/

/-- `htobe64`, `htobe32` and `htobe16`; the overloads for one byte return their argument. -/
def htobe (host : ByteOrder) (t : IntType) (x : BitVec (8 * t.bytes)) : BitVec (8 * t.bytes) :=
  match t.width with
  | .w8 => x
  | .w16 | .w32 | .w64 => toBigEndian host x

/-- `be64toh`, `be32toh` and `be16toh`. -/
def betoh (host : ByteOrder) (t : IntType) (x : BitVec (8 * t.bytes)) : BitVec (8 * t.bytes) :=
  match t.width with
  | .w8 => x
  | .w16 | .w32 | .w64 => toBigEndian host x

def hostToNetwork (host : ByteOrder) (v : IntValue) : IntValue :=
  .ofBits v.type (htobe host v.type v.bits)

def networkToHost (host : ByteOrder) (v : IntValue) : IntValue :=
  .ofBits v.type (betoh host v.type v.bits)

/-- One byte has no order. -/
lemma toBigEndian_one_byte (host : ByteOrder) {n : ℕ} (hn : n = 1) (x : BitVec (8 * n)) :
    toBigEndian host x = x := by
  have hread := wordOf_wordBytes x .little
  obtain ⟨a, ha⟩ := List.length_eq_one_iff.mp ((length_wordBytes x .little).trans hn)
  cases host with
  | big => rfl
  | little =>
    rw [toBigEndian, byteSwap, ha]
    rwa [ha] at hread

lemma htobe_eq (host : ByteOrder) (t : IntType) (x : BitVec (8 * t.bytes)) :
    htobe host t x = toBigEndian host x := by
  unfold htobe
  split
  · next hw => exact (toBigEndian_one_byte host (by rw [IntType.bytes, hw]) x).symm
  all_goals rfl

lemma betoh_eq (host : ByteOrder) (t : IntType) (x : BitVec (8 * t.bytes)) :
    betoh host t x = toBigEndian host x := htobe_eq host t x

/-- The memory of a converted integer is its big endian form. -/
lemma memory_hostToNetwork (host : ByteOrder) (v : IntValue) :
    (hostToNetwork host v).memory host = v.networkBytes := by
  rw [hostToNetwork, IntValue.memory_ofBits, htobe_eq, wordBytes_toBigEndian]
  rfl

/-- Big endian bytes that are read and converted. -/
lemma networkToHost_ofMemory (host : ByteOrder) {t : IntType} {l : List UInt8}
    (hl : l.length = t.bytes) :
    networkToHost host (.ofMemory host t l) = .bigEndian t l := by
  change IntValue.ofBits t (betoh host t (IntValue.ofBits t _).bits) = _
  rw [IntValue.bits_ofBits, betoh_eq, toBigEndian_wordOf host hl]
  rfl

end Coring
