import Mathlib.Data.List.Infix
import Mathlib.Tactic.Common

/-!
# Searching a block of cells

A reader that takes a delimited record out of a stream looks for the first occurrence of the
delimiter in the cells it has so far.  `search` is that search: the offset of the first
occurrence, or the end of the block if there is none.  `FirstEnd` says what it is for, in terms
of the block alone: the shortest prefix that ends with the delimiter.

The two meet in `firstEnd_search`, and `FirstEnd.append` is what makes the search useful on a
stream: a record found in the cells received so far is the first record of the whole stream.
-/

namespace Coring

variable {α : Type*}

/-! ## The first record -/

/-- The prefix of length `n` is the shortest one that ends with `pat`. -/
def FirstEnd (pat l : List α) (n : ℕ) : Prop :=
  n ≤ l.length ∧ pat <:+ l.take n ∧ ∀ m < n, ¬ pat <:+ l.take m

variable {pat l : List α} {n m : ℕ}

lemma suffix_take_iff (h : n ≤ l.length) :
    pat <:+ l.take n ↔ pat.length ≤ n ∧ pat <+: l.drop (n - pat.length) := by
  have hlen : (l.take n).length = n := List.length_take_of_le h
  constructor
  · rintro ⟨t, ht⟩
    have hsum : t.length + pat.length = n := by
      rw [← List.length_append, ht, hlen]
    refine ⟨by omega, l.drop n, ?_⟩
    have hl : l = t ++ (pat ++ l.drop n) := by
      rw [← List.append_assoc, ht, List.take_append_drop]
    rw [show n - pat.length = t.length by omega]
    conv_rhs => rw [hl, List.drop_left]
  · rintro ⟨hle, u, hu⟩
    refine ⟨l.take (n - pat.length), ?_⟩
    conv_rhs => rw [← Nat.sub_add_cancel hle, List.take_add, ← hu, List.take_left]

lemma FirstEnd.unique (h : FirstEnd pat l n) (h' : FirstEnd pat l m) : n = m := by
  rcases Nat.lt_trichotomy n m with hlt | heq | hlt
  · exact absurd h.2.1 (h'.2.2 n hlt)
  · exact heq
  · exact absurd h'.2.1 (h.2.2 m hlt)

/-- More cells behind the block do not change its first record. -/
lemma FirstEnd.append (h : FirstEnd pat l n) (r : List α) : FirstEnd pat (l ++ r) n := by
  obtain ⟨hle, hs, hmin⟩ := h
  refine ⟨by rw [List.length_append]; omega, ?_, fun m hm => ?_⟩
  · rwa [List.take_append_of_le_length hle]
  · rw [List.take_append_of_le_length (by omega)]
    exact hmin m hm

lemma FirstEnd.isInfix (h : FirstEnd pat l n) : pat <:+: l :=
  h.2.1.isInfix.trans (List.take_prefix n l).isInfix

/-! ## The search -/

section Search

variable [DecidableEq α]

/-- The offset of the first occurrence of `pat`, or the length of the block if there is none. -/
def search (pat : List α) : List α → ℕ
  | [] => 0
  | x :: xs => if pat.isPrefixOf (x :: xs) then 0 else search pat xs + 1

instance (pat l : List α) (n : ℕ) : Decidable (FirstEnd pat l n) :=
  inferInstanceAs (Decidable (_ ∧ _))

lemma search_le_length (pat l : List α) : search pat l ≤ l.length := by
  induction l with
  | nil => exact Nat.le_refl 0
  | cons x xs ih =>
    rw [search]
    split
    · exact Nat.zero_le _
    · exact Nat.succ_le_succ ih

/-- No earlier offset is an occurrence. -/
lemma not_prefix_of_lt_search : ∀ {l : List α} {m : ℕ}, m < search pat l → ¬ pat <+: l.drop m
  | [], _, h => absurd h (Nat.not_lt_zero _)
  | x :: xs, m, h => by
      rw [search] at h
      split at h
      · exact absurd h (Nat.not_lt_zero _)
      · next hno =>
        cases m with
        | zero => simpa using hno
        | succ m => exact not_prefix_of_lt_search (l := xs) (Nat.lt_of_succ_lt_succ h)

lemma prefix_drop_search : ∀ {l : List α}, search pat l < l.length → pat <+: l.drop (search pat l)
  | [], h => absurd h (Nat.not_lt_zero _)
  | x :: xs, h => by
      rw [search] at h ⊢
      split
      · next hyes => simpa using hyes
      · next hno =>
        rw [if_neg hno] at h
        exact prefix_drop_search (l := xs) (Nat.lt_of_succ_lt_succ h)

lemma firstEnd_search (hpat : pat ≠ []) (h : search pat l < l.length) :
    FirstEnd pat l (search pat l + pat.length) := by
  have hp := prefix_drop_search h
  have hlen : search pat l + pat.length ≤ l.length := by
    have := hp.length_le
    rw [List.length_drop] at this
    omega
  refine ⟨hlen, ?_, fun m hm hs => ?_⟩
  · rw [suffix_take_iff hlen, Nat.add_sub_cancel]
    exact ⟨Nat.le_add_left _ _, hp⟩
  · obtain ⟨hle, hp'⟩ := (suffix_take_iff (by omega)).mp hs
    have hpos : 0 < pat.length := List.length_pos_iff.mpr hpat
    exact not_prefix_of_lt_search (by omega) hp'

/-- The search succeeds exactly when there is an occurrence. -/
lemma search_lt_iff (hpat : pat ≠ []) : search pat l < l.length ↔ pat <:+: l := by
  constructor
  · intro h
    exact (firstEnd_search hpat h).isInfix
  · rintro ⟨s, t, rfl⟩
    by_contra hge
    have hpos : 0 < pat.length := List.length_pos_iff.mpr hpat
    have hlt : s.length < search pat (s ++ pat ++ t) := by
      simp only [List.length_append] at hge
      omega
    refine not_prefix_of_lt_search hlt ?_
    rw [List.append_assoc, List.drop_left]
    exact List.prefix_append _ _

lemma exists_firstEnd_iff (hpat : pat ≠ []) : (∃ n, FirstEnd pat l n) ↔ pat <:+: l :=
  ⟨fun ⟨_, h⟩ => h.isInfix, fun h => ⟨_, firstEnd_search hpat ((search_lt_iff hpat).mpr h)⟩⟩

end Search

end Coring
