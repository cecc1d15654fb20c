import Mathlib.Algebra.Group.Nat.Defs
import Mathlib.Data.Nat.Notation

/-!
# Numerals

The text of a number in a base, with the letters of the digits from ten on in either case, and the
number a text denotes.  `readNumeral_numeral` is that the one undoes the other, for the bases the
digits of which have a character.
-/

namespace Coring

/-- `n` in base `b`, the highest digit first. -/
def numeral (b : ℕ) (upper : Bool) (n : ℕ) : List Char :=
  (Nat.toDigits b n).map fun c => if upper then c.toUpper else c

/-- The value of a digit. -/
def digitValue (c : Char) : Option ℕ :=
  if '0' ≤ c ∧ c ≤ '9' then some (c.toNat - '0'.toNat)
  else if 'A' ≤ c ∧ c ≤ 'F' then some (10 + (c.toNat - 'A'.toNat))
  else if 'a' ≤ c ∧ c ≤ 'f' then some (10 + (c.toNat - 'a'.toNat))
  else none

/-- The number that `s` denotes in base `b`; `none` where `s` has another character. -/
def readNumeral (b : ℕ) (s : List Char) : Option ℕ :=
  s.foldlM (fun acc c => (digitValue c).bind fun d => if d < b then some (b * acc + d) else none) 0

example : readNumeral 16 (numeral 16 true 48879) = some 48879 := by decide

/-! ## The digits -/

/-- The character of a digit. -/
def digitText (upper : Bool) (d : ℕ) : Char :=
  if upper then d.digitChar.toUpper else d.digitChar

lemma digitValue_digitText (upper : Bool) {d : ℕ} (h : d < 16) :
    digitValue (digitText upper d) = some d := by
  have htable : ∀ (u : Bool) (d : Fin 16), digitValue (digitText u d) = some (d : ℕ) := by decide
  exact htable upper ⟨d, h⟩

lemma numeral_of_lt {b n : ℕ} (upper : Bool) (h : n < b) :
    numeral b upper n = [digitText upper n] := by
  rw [numeral, Nat.toDigits_of_lt_base h]
  rfl

/-- The last digit comes off the end. -/
lemma numeral_of_le {b n : ℕ} (upper : Bool) (hb : 1 < b) (h : b ≤ n) :
    numeral b upper n = numeral b upper (n / b) ++ [digitText upper (n % b)] := by
  rw [numeral, Nat.toDigits_of_base_le hb h, List.map_append]
  rfl

/-- The induction that the digits of a number make. -/
lemma numeral_induction {b : ℕ} (hb : 1 < b) {P : ℕ → Prop} (small : ∀ n < b, P n)
    (step : ∀ n, b ≤ n → P (n / b) → P n) (n : ℕ) : P n := by
  induction n using Nat.strongRecOn with
  | _ n ih =>
    obtain hlt | hle := Nat.lt_or_ge n b
    · exact small n hlt
    · exact step n hle (ih (n / b) (Nat.div_lt_self (by omega) hb))

lemma numeral_ne_nil (b : ℕ) (upper : Bool) (n : ℕ) : numeral b upper n ≠ [] := by
  rw [numeral, ne_eq, List.map_eq_nil_iff]
  exact Nat.toDigits_ne_nil

/-! ## Reading -/

lemma readNumeral_append_singleton (b : ℕ) (s : List Char) (c : Char) :
    readNumeral b (s ++ [c]) = (readNumeral b s).bind fun acc =>
      (digitValue c).bind fun d => if d < b then some (b * acc + d) else none := by
  rw [readNumeral, List.foldlM_append]
  simp only [List.foldlM_cons, List.foldlM_nil, Option.bind_eq_bind, Option.pure_def,
    Option.bind_fun_some]
  rfl

theorem readNumeral_numeral {b : ℕ} (hb : 1 < b) (hb' : b ≤ 16) (upper : Bool) (n : ℕ) :
    readNumeral b (numeral b upper n) = some n := by
  induction n using numeral_induction hb with
  | small n hn =>
    rw [numeral_of_lt upper hn, ← List.nil_append [_], readNumeral_append_singleton,
      digitValue_digitText upper (by omega)]
    simp only [readNumeral, List.foldlM_nil, Option.pure_def, Option.bind_some, if_pos hn,
      Nat.mul_zero, Nat.zero_add]
  | step n hn ih =>
    have hlt : n % b < b := Nat.mod_lt _ (by omega)
    rw [numeral_of_le upper hb hn, readNumeral_append_singleton, ih,
      digitValue_digitText upper (by omega)]
    simp only [Option.bind_some, if_pos hlt, Nat.div_add_mod]

/-! ## What stands in a numeral -/

/-- A positive number has no leading zero. -/
theorem head_numeral_ne_zero {b : ℕ} (hb : 1 < b) (hb' : b ≤ 16) (upper : Bool) {n : ℕ}
    (h : 0 < n) : (numeral b upper n).head? ≠ some '0' := by
  induction n using numeral_induction hb with
  | small n hn =>
    have htable : ∀ (u : Bool) (d : Fin 16), digitText u d = '0' → (d : ℕ) = 0 := by decide
    rw [numeral_of_lt upper hn, List.head?_cons, ne_eq, Option.some_inj]
    intro hzero
    exact absurd (htable upper ⟨n, by omega⟩ hzero) (Nat.ne_of_gt h)
  | step n hn ih =>
    have hhead := ih (Nat.div_pos hn (by omega))
    obtain ⟨c, l, hcons⟩ := List.exists_cons_of_ne_nil (numeral_ne_nil b upper (n / b))
    rw [numeral_of_le upper hb hn]
    rwa [hcons] at hhead ⊢

/-- Every character of a numeral is one of a digit. -/
lemma exists_of_mem_numeral {b : ℕ} (hb : 1 < b) {upper : Bool} {n : ℕ} {c : Char}
    (h : c ∈ numeral b upper n) : ∃ d < b, c = digitText upper d := by
  induction n using numeral_induction hb with
  | small n hn =>
    rw [numeral_of_lt upper hn, List.mem_singleton] at h
    exact ⟨n, hn, h⟩
  | step n hn ih =>
    rw [numeral_of_le upper hb hn, List.mem_append, List.mem_singleton] at h
    obtain h | h := h
    · exact ih h
    · exact ⟨n % b, Nat.mod_lt _ (by omega), h⟩

/-- The letters of a numeral are in the case asked for. -/
theorem case_of_mem_numeral {b : ℕ} (hb : 1 < b) (hb' : b ≤ 16) {upper : Bool} {n : ℕ} {c : Char}
    (h : c ∈ numeral b upper n) : if upper then c.isLower = false else c.isUpper = false := by
  have htable : ∀ (u : Bool) (d : Fin 16),
      if u then (digitText u d).isLower = false else (digitText u d).isUpper = false := by decide
  obtain ⟨d, hd, rfl⟩ := exists_of_mem_numeral hb h
  exact htable upper ⟨d, by omega⟩

/-- A number below `b ^ k` has at most `k` digits. -/
theorem length_numeral_le_iff {b : ℕ} (hb : 1 < b) (upper : Bool) {n k : ℕ} (hk : 0 < k) :
    (numeral b upper n).length ≤ k ↔ n < b ^ k := by
  rw [numeral, List.length_map, Nat.length_toDigits_le_iff hb hk]

end Coring
