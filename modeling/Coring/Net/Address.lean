import Coring.Framework.Numeral
import Coring.Net.Digits

/-!
# The C library on addresses

The functions of the C library that `include/coring/endpoint.hpp` reads addresses and ports with:
`inet_pton`, `strchr` and `atoi`.  None of them is part of the repository; the definitions follow
their documented behaviour on C strings, which are lists of characters without a NUL here.

An address is its four bytes in network order.  `dotted` is its canonical text, and
`inetPton_dotted` says that the text is read as the address.
-/

namespace Coring

/-! ## Reading addresses -/

/-- One part of a dotted address: decimal digits without a leading zero, at most 255. -/
def parseOctet (part : List Char) : Option UInt8 :=
  if part ≠ [] ∧ part.all Char.isDigit ∧ (part.length = 1 ∨ part.head? ≠ some '0') ∧
      Nat.ofDigitChars 10 part 0 ≤ 255 then
    some (UInt8.ofNat (Nat.ofDigitChars 10 part 0))
  else none

/-- `inet_pton(AF_INET, src, dst)`: the bytes stored at `dst`, if `src` is accepted. -/
def inetPton (src : List Char) : Option (List UInt8) :=
  let parts := src.splitOn '.'
  if parts.length = 4 then parts.mapM parseOctet else none

/-- The text of an address. -/
def dotted (octets : List UInt8) : List Char :=
  ['.'].intercalate (octets.map fun o => Nat.toDigits 10 o.toNat)

example : inetPton "10.0.255.1".toList = some [10, 0, 255, 1] := by decide

example : inetPton "10.0.256.1".toList = none ∧ inetPton "10.00.25.1".toList = none ∧
    inetPton "10.0.25".toList = none := by decide

lemma head_toDigits_ne_zero {n : ℕ} (h : 0 < n) : (Nat.toDigits 10 n).head? ≠ some '0' := by
  simpa [numeral] using head_numeral_ne_zero (by decide) (by decide) false h

lemma parseOctet_toDigits (o : UInt8) : parseOctet (Nat.toDigits 10 o.toNat) = some o := by
  have hlt : o.toNat < 256 := o.toNat_lt
  have hdigits : (Nat.toDigits 10 o.toNat).all Char.isDigit :=
    List.all_eq_true.mpr fun _ => Nat.isDigit_of_mem_toDigits (by decide) (by decide)
  have hlead : (Nat.toDigits 10 o.toNat).length = 1 ∨
      (Nat.toDigits 10 o.toNat).head? ≠ some '0' := by
    obtain hzero | hpos := Nat.eq_zero_or_pos o.toNat
    · exact .inl (by rw [hzero, Nat.toDigits_zero]; rfl)
    · exact .inr (head_toDigits_ne_zero hpos)
  rw [parseOctet, Nat.ofDigitChars_ten_toDigits,
    if_pos ⟨Nat.toDigits_ne_nil, hdigits, hlead, by omega⟩]
  exact congrArg some (UInt8.ofNat_toNat)

/-- Reading the canonical text of an address gives the address. -/
lemma inetPton_dotted {octets : List UInt8} (h : octets.length = 4) :
    inetPton (dotted octets) = some octets := by
  have hdots : ∀ part ∈ octets.map fun o => Nat.toDigits 10 o.toNat, '.' ∉ part := by
    rintro _ hpart hdot
    obtain ⟨o, -, rfl⟩ := List.mem_map.mp hpart
    exact not_mem_toDigits (by decide) _ hdot
  have hne : octets.map (fun o => Nat.toDigits 10 o.toNat) ≠ [] := by
    rw [← List.length_pos_iff, List.length_map]
    omega
  have hparts : ∀ l : List UInt8,
      (l.map fun o => Nat.toDigits 10 o.toNat).mapM parseOctet = some l := by
    intro l
    induction l with
    | nil => rfl
    | cons o l ih =>
      rw [List.map_cons, List.mapM_cons, parseOctet_toDigits, ih]
      rfl
  rw [inetPton, dotted, List.splitOn_intercalate '.' hdots hne, List.length_map, if_pos h, hparts]

/-! ## What is accepted -/

lemma mem_intercalate {α : Type*} {x a : α} {ls : List (List α)} (h : a ∈ [x].intercalate ls) :
    a = x ∨ ∃ l ∈ ls, a ∈ l := by
  induction ls with
  | nil => cases h
  | cons l ls ih =>
    cases ls with
    | nil => exact .inr ⟨l, List.mem_singleton_self _, by simpa using h⟩
    | cons l' ls =>
      rw [List.intercalate_cons_cons, List.append_assoc, List.mem_append, List.mem_append,
        List.mem_singleton] at h
      obtain hl | rfl | hrest := h
      · exact .inr ⟨l, List.mem_cons_self .., hl⟩
      · exact .inl rfl
      · obtain heq | ⟨m, hm, ha⟩ := ih hrest
        · exact .inl heq
        · exact .inr ⟨m, List.mem_cons_of_mem _ hm, ha⟩

lemma isDigit_of_parseOctet {part : List Char} {o : UInt8} (h : parseOctet part = some o) :
    part.all Char.isDigit := by
  unfold parseOctet at h
  split at h
  · next hpart => exact hpart.2.1
  · cases h

lemma isDigit_of_mapM {parts : List (List Char)} {octets : List UInt8}
    (h : parts.mapM parseOctet = some octets) : ∀ part ∈ parts, part.all Char.isDigit := by
  induction parts generalizing octets with
  | nil => exact fun _ hp => nomatch hp
  | cons part parts ih =>
    rw [List.mapM_cons, Option.bind_eq_bind, Option.bind_eq_some_iff] at h
    obtain ⟨o, ho, h⟩ := h
    rw [Option.bind_eq_bind, Option.bind_eq_some_iff] at h
    obtain ⟨os, hos, -⟩ := h
    intro p hp
    obtain rfl | hp := List.mem_cons.mp hp
    · exact isDigit_of_parseOctet ho
    · exact ih hos p hp

/-- An accepted text consists of digits and dots. -/
lemma isDigit_of_inetPton {src : List Char} {octets : List UInt8}
    (h : inetPton src = some octets) : ∀ c ∈ src, c = '.' ∨ c.isDigit = true := by
  intro c hc
  have hparts : (src.splitOn '.').mapM parseOctet = some octets := by
    simp only [inetPton] at h
    split at h
    · exact h
    · cases h
  have hjoin : ['.'].intercalate (src.splitOn '.') = src := List.intercalate_splitOn '.'
  obtain hdot | ⟨part, hpart, hcp⟩ := mem_intercalate (hjoin.symm ▸ hc)
  · exact .inl hdot
  · exact .inr (List.all_eq_true.mp (isDigit_of_mapM hparts part hpart) c hcp)

/-! ## Searching and reading numbers -/

/-- `strchr(s, c)` as an offset from `s`. -/
def strchr (s : List Char) (c : Char) : Option ℕ := s.findIdx? (· = c)

/-- `isspace` in the C locale. -/
def isSpace (c : Char) : Bool := c = ' ' ∨ 9 ≤ c.toNat ∧ c.toNat ≤ 13

/-- `atoi`: after any white space an optional sign and the digits up to the first other character,
of which there may be none. -/
def atoi (s : List Char) : ℤ :=
  match s.dropWhile isSpace with
  | '-' :: rest => -(Nat.ofDigitChars 10 (rest.takeWhile Char.isDigit) 0)
  | '+' :: rest => Nat.ofDigitChars 10 (rest.takeWhile Char.isDigit) 0
  | rest => Nat.ofDigitChars 10 (rest.takeWhile Char.isDigit) 0

example : atoi " 8080/".toList = 8080 ∧ atoi "-17".toList = -17 := by decide

end Coring
