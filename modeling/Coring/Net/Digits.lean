import Mathlib.Data.Int.Notation
import Mathlib.Data.List.TakeWhile
import Coring.Framework.Storage

/-!
# Digit routines

`itoad` of `include/coring/detail/str_utils.hpp` writes the decimal text of an `int` into a buffer:
it takes the digits off from the lowest one on, each through a table that has them on both sides of
its zero, since the remainder of a negative number is negative; it then appends the sign, and
reverses what it has written.  Nothing tells it how long the buffer is; a text that is longer is
written over whatever follows, which is not modelled (`none`).

`digitsFrom_eq` is what the loop computes, and `itoad_eq` that the text is the decimal one.
-/

namespace Coring

/-- `'\0'`. -/
def nul : Char := Char.ofNat 0

/-- `str_util_parse_digits`. -/
def strUtilParseDigits : List Char :=
  ['9', '8', '7', '6', '5', '4', '3', '2', '1', '0', '1', '2', '3', '4', '5', '6', '7', '8', '9',
    'A', 'B', 'C', 'D', 'E', 'F', '0', '1', '2', '3', '4', '5', '6', '7', '8', '9',
    'a', 'b', 'c', 'd', 'e', 'f']

/-- `str_util_parse_zero[lsd]`; `none` outside the table. -/
def strUtilParseZero (lsd : ℤ) : Option Char :=
  if -9 ≤ lsd then strUtilParseDigits[(9 + lsd).toNat]? else none

/-- The loop of `itoad`: the characters it writes for `i`, the lowest digit first. -/
def digitsFrom : ℕ → ℤ → Option (List Char)
  | 0, _ => none
  | fuel + 1, i => do
    let lsd := i.tmod 10
    let i := i.tdiv 10
    let c ← strUtilParseZero lsd
    if i ≠ 0 then return c :: (← digitsFrom fuel i) else return [c]

/-- `itoad(buf, val)`: what it leaves in the buffer. -/
def itoad (buf : List Char) (val : ℤ) : Option (List Char) := do
  let digits ← digitsFrom (val.natAbs + 1) val
  let written := if val < 0 then digits ++ ['-'] else digits
  if written.length < buf.length then some (overwrite buf 0 (written.reverse ++ [nul])) else none

/-- The text of an integer. -/
def decimal (val : ℤ) : List Char :=
  if val < 0 then '-' :: Nat.toDigits 10 val.natAbs else Nat.toDigits 10 val.natAbs

/-- `std::string(const char *)`. -/
def cString (s : List Char) : List Char := s.takeWhile (· ≠ nul)

/-! ## The loop -/

/-- The table is symmetric about its zero. -/
lemma strUtilParseZero_tmod (i : ℤ) :
    strUtilParseZero (i.tmod 10) = some (Nat.digitChar (i.natAbs % 10)) := by
  have htable : ∀ d : Fin 10, strUtilParseZero (d : ℕ) = some (Nat.digitChar d) ∧
      strUtilParseZero (-(d : ℕ)) = some (Nat.digitChar d) := by decide
  have hlt : i.natAbs % 10 < 10 := Nat.mod_lt _ (by decide)
  obtain ⟨hpos, hneg⟩ := htable ⟨i.natAbs % 10, hlt⟩
  have habs : Int.tmod i.natAbs 10 = (i.natAbs % 10 : ℕ) := (Int.ofNat_tmod ..).symm
  obtain hi | hi := Int.natAbs_eq i
  · rwa [← habs, ← hi] at hpos
  · rwa [← habs, ← Int.neg_tmod, ← hi] at hneg

/-- The loop writes the digits of the absolute value, the lowest first. -/
lemma digitsFrom_eq {fuel : ℕ} {i : ℤ} (h : i.natAbs < fuel) :
    digitsFrom fuel i = some (Nat.toDigits 10 i.natAbs).reverse := by
  induction fuel generalizing i with
  | zero => omega
  | succ fuel ih =>
    have hdiv : (i.tdiv 10).natAbs = i.natAbs / 10 := Int.natAbs_tdiv i 10
    rw [digitsFrom, strUtilParseZero_tmod]
    by_cases hzero : i.tdiv 10 = 0
    · have hsmall : i.natAbs < 10 := by omega
      simp only [hzero, ne_eq, not_true_eq_false, if_false, Option.bind_eq_bind,
        Option.bind_some, Nat.toDigits_of_lt_base hsmall, Nat.mod_eq_of_lt hsmall]
      rfl
    · have hbig : 10 ≤ i.natAbs := by omega
      have hrest := @ih (i.tdiv 10) (by omega)
      rw [hdiv] at hrest
      simp only [ne_eq, hzero, not_false_eq_true, if_true, hrest, Option.bind_eq_bind,
        Option.bind_some, Nat.toDigits_of_base_le (by decide) hbig, List.reverse_append]
      rfl

lemma decimal_of_nonneg {val : ℤ} (h : 0 ≤ val) : decimal val = Nat.toDigits 10 val.natAbs :=
  if_neg (Int.not_lt.mpr h)

/-- `itoad` writes the decimal text and a NUL, if they fit. -/
lemma itoad_eq (buf : List Char) (val : ℤ) :
    itoad buf val = if (decimal val).length < buf.length then
      some (overwrite buf 0 (decimal val ++ [nul])) else none := by
  have hrev : (if val < 0 then (Nat.toDigits 10 val.natAbs).reverse ++ ['-']
      else (Nat.toDigits 10 val.natAbs).reverse).reverse = decimal val := by
    unfold decimal
    split
    · rw [List.reverse_append, List.reverse_reverse, List.reverse_singleton, List.singleton_append]
    · rw [List.reverse_reverse]
  rw [itoad, digitsFrom_eq (Nat.lt_succ_self _)]
  simp only [Option.bind_eq_bind, Option.bind_some, hrev]
  rw [← List.length_reverse, hrev]

/-! ## Reading the text -/

/-- Only digits stand in the text of a number. -/
lemma not_mem_toDigits {c : Char} (hc : c.isDigit = false) (n : ℕ) : c ∉ Nat.toDigits 10 n := by
  intro hmem
  have hdigit := Nat.isDigit_of_mem_toDigits (by decide) (by decide) hmem
  rw [hc] at hdigit
  cases hdigit

lemma nul_not_mem_decimal (val : ℤ) : nul ∉ decimal val := by
  have hdigits := not_mem_toDigits (show nul.isDigit = false by decide) val.natAbs
  unfold decimal
  split
  · rw [List.mem_cons, not_or]
    exact ⟨by decide, hdigits⟩
  · exact hdigits

lemma cString_of_nul_not_mem {s : List Char} (h : nul ∉ s) : cString s = s :=
  List.takeWhile_eq_self_iff.mpr fun _ hc => decide_eq_true fun heq => h (heq ▸ hc)

/-- A string that has not ended goes on. -/
lemma cString_append {s : List Char} (h : nul ∉ s) (rest : List Char) :
    cString (s ++ rest) = s ++ cString rest := by
  rw [cString, List.takeWhile_append_of_pos]
  · rfl
  · exact fun c hc => decide_eq_true fun heq => h (heq ▸ hc)

/-- A string that has ended does not. -/
lemma cString_append_of_mem {s : List Char} (h : nul ∈ s) (rest : List Char) :
    cString (s ++ rest) = cString s := by
  rw [cString, List.takeWhile_append, if_neg]
  · rfl
  · intro hlen
    have hall := List.takeWhile_eq_self_iff.mp ((List.takeWhile_prefix _).eq_of_length hlen)
    exact absurd (hall nul h) (by decide)

/-- What is in a string as C sees it is in the string. -/
lemma mem_of_mem_cString {s : List Char} {c : Char} (h : c ∈ cString s) : c ∈ s :=
  (List.takeWhile_prefix _).subset h

/-- What `itoad` has written, read as a string. -/
lemma map_cString_itoad (buf : List Char) (val : ℤ) :
    (itoad buf val).map cString
      = if (decimal val).length < buf.length then some (decimal val) else none := by
  rw [itoad_eq]
  split
  · have hend : ∀ rest, cString (nul :: rest) = [] := fun _ =>
      List.takeWhile_cons_of_neg (by decide)
    rw [Option.map_some, overwrite, List.take_zero, List.nil_append, List.append_assoc,
      cString_append (nul_not_mem_decimal val), List.singleton_append, hend, List.append_nil]
  · rfl

end Coring
