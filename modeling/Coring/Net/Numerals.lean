import Mathlib.Algebra.Group.Int.Defs
import Coring.Net.Address

/-!
# Both digit routines

`itoa2` of `include/coring/detail/str_utils.hpp` is `itoad` for the unsigned value of its argument
and a radix, with the letters in upper case if `cap` is set: it takes its characters to the right of
one of the two zeros of the table.

`numerals_exact` is what the two of them write for every `int`, `INT_MIN` included, and that it is
read back as the number.
-/

namespace Coring

/-- `str_util_parse_zero` or `str_util_parse_digits + 25`, as an index into the table. -/
def zeroOf (cap : BitVec 32) : ℕ := if cap ≠ 0 then 9 else 25

/-- The loop of `itoa2`: the characters it writes for `i`, the lowest digit first. -/
def digitsOf (z : ℕ) (rdx : BitVec 32) : ℕ → BitVec 32 → Option (List Char)
  | 0, _ => none
  | fuel + 1, i => do
    let lsd := i % rdx
    let i := i / rdx
    let c ← strUtilParseDigits[z + lsd.toNat]?
    if i ≠ 0 then return c :: (← digitsOf z rdx fuel i) else return [c]

/-- `itoa2(buf, val, rdx, cap)`: what it leaves in the buffer. -/
def itoa2 (buf : List Char) (val rdx cap : BitVec 32) : Option (List Char) :=
  -- the remainder by zero is undefined
  if rdx = 0 then none else do
    let written ← digitsOf (zeroOf cap) rdx (val.toNat + 1) val
    if written.length < buf.length then some (overwrite buf 0 (written.reverse ++ [nul])) else none

/-- The text that `itoa2` is to write. -/
def radixText (val rdx cap : BitVec 32) : List Char :=
  numeral rdx.toNat (decide (cap ≠ 0)) val.toNat

/-! ## The loop -/

/-- To the right of either zero the table has the digits of every radix up to sixteen. -/
lemma strUtilParseDigits_zeroOf (cap : BitVec 32) {d : ℕ} (h : d < 16) :
    strUtilParseDigits[zeroOf cap + d]? = some (digitText (decide (cap ≠ 0)) d) := by
  have htable : ∀ d : Fin 16, strUtilParseDigits[9 + (d : ℕ)]? = some (digitText true d) ∧
      strUtilParseDigits[25 + (d : ℕ)]? = some (digitText false d) := by decide
  obtain ⟨hupper, hlower⟩ := htable ⟨d, h⟩
  by_cases hcap : cap = 0
  · simpa only [zeroOf, hcap, ne_eq, not_true_eq_false, if_false, decide_false] using hlower
  · simpa only [zeroOf, hcap, ne_eq, not_false_eq_true, if_true, decide_true] using hupper

/-- The loop writes the numeral of the value, the lowest digit first. -/
lemma digitsOf_eq {rdx : BitVec 32} (hrdx : 1 < rdx.toNat) (hrdx' : rdx.toNat ≤ 16)
    (cap : BitVec 32) {fuel : ℕ} {i : BitVec 32} (h : i.toNat < fuel) :
    digitsOf (zeroOf cap) rdx fuel i = some (radixText i rdx cap).reverse := by
  induction fuel generalizing i with
  | zero => omega
  | succ fuel ih =>
    have hmod : (i % rdx).toNat = i.toNat % rdx.toNat := BitVec.toNat_umod
    have hdiv : (i / rdx).toNat = i.toNat / rdx.toNat := BitVec.toNat_udiv
    have hlt : i.toNat % rdx.toNat < 16 := by
      have := Nat.mod_lt i.toNat (show 0 < rdx.toNat by omega)
      omega
    have hzero : i / rdx = 0 ↔ i.toNat < rdx.toNat := by
      rw [← BitVec.toNat_inj, hdiv, show (0 : BitVec 32).toNat = 0 from rfl, Nat.div_eq_zero_iff]
      omega
    rw [digitsOf, hmod, strUtilParseDigits_zeroOf cap hlt]
    by_cases hsmall : i.toNat < rdx.toNat
    · rw [radixText, numeral_of_lt _ hsmall, Nat.mod_eq_of_lt hsmall]
      simp only [hzero.mpr hsmall, ne_eq, not_true_eq_false, if_false, Option.bind_eq_bind,
        Option.bind_some, List.reverse_singleton]
      rfl
    · have hle : rdx.toNat ≤ i.toNat := Nat.le_of_not_lt hsmall
      have hless : i.toNat / rdx.toNat < i.toNat := Nat.div_lt_self (by omega) hrdx
      have hrest := @ih (i / rdx) (by omega)
      rw [radixText, hdiv] at hrest
      rw [radixText, numeral_of_le _ hrdx hle]
      simp only [ne_eq, hzero, hsmall, not_false_eq_true, if_true, hrest, Option.bind_eq_bind,
        Option.bind_some, List.reverse_append]
      rfl

/-- `itoa2` writes the numeral and a NUL, if they fit. -/
lemma itoa2_eq (buf : List Char) (val cap : BitVec 32) {rdx : BitVec 32} (hrdx : 1 < rdx.toNat)
    (hrdx' : rdx.toNat ≤ 16) :
    itoa2 buf val rdx cap = if (radixText val rdx cap).length < buf.length then
      some (overwrite buf 0 (radixText val rdx cap ++ [nul])) else none := by
  have hne : rdx ≠ 0 := by
    rintro rfl
    exact absurd hrdx (by decide)
  rw [itoa2, if_neg hne, digitsOf_eq hrdx hrdx' cap (Nat.lt_succ_self _)]
  simp only [Option.bind_eq_bind, Option.bind_some, List.length_reverse, List.reverse_reverse]

/-! ## The decimal text -/

lemma length_decimal (val : BitVec 32) : (decimal val.toInt).length ≤ 11 := by
  have hlow : -2 ^ 31 ≤ val.toInt := BitVec.le_toInt val
  have hhigh : val.toInt < 2 ^ 31 := BitVec.toInt_lt
  have hdigits : (Nat.toDigits 10 val.toInt.natAbs).length ≤ 10 :=
    (Nat.length_toDigits_le_iff (by decide) (by decide)).mpr (by omega)
  unfold decimal
  split
  · rw [List.length_cons]
    omega
  · omega

/-- `atoi` reads the digits of a number up to its end. -/
lemma takeWhile_toDigits (n : ℕ) :
    Nat.ofDigitChars 10 ((Nat.toDigits 10 n).takeWhile Char.isDigit) 0 = n := by
  have hall : (Nat.toDigits 10 n).takeWhile Char.isDigit = Nat.toDigits 10 n :=
    List.takeWhile_eq_self_iff.mpr fun _ => Nat.isDigit_of_mem_toDigits (by decide) (by decide)
  rw [hall, Nat.ofDigitChars_ten_toDigits]

/-- A text that begins with a digit is read from there on. -/
lemma atoi_of_isDigit {c : Char} (hc : c.isDigit = true) (l : List Char) :
    atoi (c :: l) = Nat.ofDigitChars 10 ((c :: l).takeWhile Char.isDigit) 0 := by
  have hspace : isSpace c = false := by
    rw [Char.isDigit_iff_toNat] at hc
    rw [isSpace, decide_eq_false_iff_not]
    rintro (rfl | hrange)
    · exact absurd hc (by decide)
    · have hlow : 48 ≤ c.toNat := hc.1
      omega
  rw [atoi, List.dropWhile_cons_of_neg (by rw [hspace]; decide)]
  split
  · next hcons =>
    rw [(List.cons.inj hcons).1] at hc
    exact absurd hc (by decide)
  · next hcons =>
    rw [(List.cons.inj hcons).1] at hc
    exact absurd hc (by decide)
  · rfl

lemma atoi_decimal (val : ℤ) : atoi (decimal val) = val := by
  unfold decimal
  split
  · rw [atoi, List.dropWhile_cons_of_neg (by decide)]
    simp only [takeWhile_toDigits]
    omega
  · obtain ⟨c, l, hcons⟩ := List.exists_cons_of_ne_nil (@Nat.toDigits_ne_nil val.natAbs 10)
    have hc : c.isDigit = true := Nat.isDigit_of_mem_toDigits (by decide) (by decide)
      (hcons ▸ List.mem_cons_self ..)
    have hread := takeWhile_toDigits val.natAbs
    rw [hcons] at hread ⊢
    rw [atoi_of_isDigit hc, hread]
    omega

/-- An optional sign and digits, with no zero before them. -/
def CanonicalDecimal (s : List Char) : Prop :=
  ∃ digits : List Char, (s = digits ∨ s = '-' :: digits) ∧ digits ≠ [] ∧
    (∀ c ∈ digits, c.isDigit = true) ∧ (digits.head? = some '0' → s = ['0'])

lemma canonicalDecimal_decimal (val : ℤ) : CanonicalDecimal (decimal val) := by
  have hdigits : ∀ c ∈ Nat.toDigits 10 val.natAbs, c.isDigit = true := fun _ =>
    Nat.isDigit_of_mem_toDigits (by decide) (by decide)
  refine ⟨Nat.toDigits 10 val.natAbs, ?_, Nat.toDigits_ne_nil, hdigits, fun hhead => ?_⟩
  · unfold decimal
    split
    · exact .inr rfl
    · exact .inl rfl
  · have hzero : val = 0 := by
      by_contra hne
      exact head_toDigits_ne_zero (Int.natAbs_pos.mpr hne) hhead
    subst hzero
    rfl

/-! ## Both routines -/

/-- What `itoad` is to do with `val`. -/
structure ItoadExact (val : BitVec 32) : Prop where
  /-- Every character comes from inside the table. -/
  writes : ∀ buf : List Char, (decimal val.toInt).length < buf.length →
    itoad buf val.toInt = some (overwrite buf 0 (decimal val.toInt ++ [nul]))
  canonical : CanonicalDecimal (decimal val.toInt)
  length_le : (decimal val.toInt).length ≤ 11
  readBack : atoi (decimal val.toInt) = val.toInt

/-- What `itoa2` is to do with `val`. -/
structure Itoa2Exact (val rdx cap : BitVec 32) : Prop where
  writes : ∀ buf : List Char, (radixText val rdx cap).length < buf.length →
    itoa2 buf val rdx cap = some (overwrite buf 0 (radixText val rdx cap ++ [nul]))
  nonempty : radixText val rdx cap ≠ []
  noLeadingZero : (radixText val rdx cap).head? = some '0' → radixText val rdx cap = ['0']
  upperCase : cap ≠ 0 → ∀ c ∈ radixText val rdx cap, c.isLower = false
  lowerCase : cap = 0 → ∀ c ∈ radixText val rdx cap, c.isUpper = false
  length_le : (radixText val rdx cap).length ≤ 32
  readBack : readNumeral rdx.toNat (radixText val rdx cap) = some val.toNat

lemma itoadExact (val : BitVec 32) : ItoadExact val where
  writes buf hroom := by rw [itoad_eq, if_pos hroom]
  canonical := canonicalDecimal_decimal _
  length_le := length_decimal val
  readBack := atoi_decimal _

lemma itoa2Exact (val cap : BitVec 32) {rdx : BitVec 32} (hrdx : 1 < rdx.toNat)
    (hrdx' : rdx.toNat ≤ 16) : Itoa2Exact val rdx cap where
  writes buf hroom := by rw [itoa2_eq buf val cap hrdx hrdx', if_pos hroom]
  nonempty := numeral_ne_nil _ _ _
  noLeadingZero hhead := by
    obtain hzero | hpos := Nat.eq_zero_or_pos val.toNat
    · rw [radixText, hzero, numeral_of_lt _ (by omega)]
      cases decide (cap ≠ 0) <;> rfl
    · exact absurd hhead (head_numeral_ne_zero hrdx hrdx' _ hpos)
  upperCase hcap c hc := by
    simpa only [decide_eq_true hcap, if_true] using case_of_mem_numeral hrdx hrdx' hc
  lowerCase hcap c hc := by
    simpa only [hcap, ne_eq, not_true_eq_false, decide_false, Bool.false_eq_true, if_false]
      using case_of_mem_numeral hrdx hrdx' hc
  length_le := by
    have hbits : 2 ^ 32 ≤ rdx.toNat ^ 32 := Nat.pow_le_pow_left hrdx 32
    exact (length_numeral_le_iff hrdx _ (by decide)).mpr (Nat.lt_of_lt_of_le val.isLt hbits)
  readBack := readNumeral_numeral hrdx hrdx' _ _

/-- For every `int` the decimal text, and in every radix up to sixteen the text of its unsigned
value. -/
theorem numerals_exact (val : BitVec 32) : ItoadExact val ∧
    ∀ rdx cap : BitVec 32, 2 ≤ rdx.toNat → rdx.toNat ≤ 16 → Itoa2Exact val rdx cap :=
  ⟨itoadExact val, fun _ cap => itoa2Exact val cap⟩

theorem numerals_exact_intMin :
    itoad (List.replicate 12 'x') (-2147483648) = some ("-2147483648".toList ++ [nul]) ∧
      itoa2 (List.replicate 9 'x') (BitVec.intMin 32) 16 1 = some ("80000000".toList ++ [nul]) :=
  ⟨(numerals_exact (BitVec.intMin 32)).1.writes (List.replicate 12 'x') (by decide),
    ((numerals_exact (BitVec.intMin 32)).2 16 1 (by decide) (by decide)).writes
      (List.replicate 9 'x') (by decide)⟩

end Coring
