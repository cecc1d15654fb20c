import Coring.Framework.Search
import Mathlib.Data.List.Flatten
import Mathlib.Data.List.Basic

/-!
# Delimited records

A block of cells that a delimiter divides into records: every record is followed by one
delimiter, and what comes after the last of them is the beginning of a record that is not
complete.  `joined` builds such a block, and `exists_joined` takes any block apart.

A reader looks for the next delimiter from the front.  That finds the end of the first record,
and not some earlier place, if no delimiter lies inside the record (`Plain`) and none can begin
inside the record and end behind it.  The second is a property of the delimiter alone: no proper
end of it is a beginning of it (`Unbordered`).
-/

namespace Coring

variable {α : Type*}

/-! ## Blocks of records -/

/-- The records, each with its delimiter, and the incomplete one behind them. -/
def joined (pat : List α) (records : List (List α)) (tail : List α) : List α :=
  records.flatMap (· ++ pat) ++ tail

section Joined

variable (pat : List α) (x : List α) (xs ys : List (List α)) (tail t : List α)

@[simp] lemma joined_nil : joined pat [] tail = tail := rfl

lemma joined_cons : joined pat (x :: xs) tail = x ++ pat ++ joined pat xs tail := by
  simp only [joined, List.flatMap_cons, List.append_assoc]

lemma joined_append : joined pat (xs ++ ys) tail = joined pat xs (joined pat ys tail) := by
  simp only [joined, List.flatMap_append, List.append_assoc]

lemma joined_append_tail : joined pat xs (tail ++ t) = joined pat xs tail ++ t := by
  simp only [joined, List.append_assoc]

end Joined

/-! ## Delimiters -/

/-- No delimiter inside. -/
def Plain (pat x : List α) : Prop := ¬ pat <:+: x

/-- No proper end of the delimiter is a beginning of it. -/
def Unbordered (pat : List α) : Prop :=
  pat ≠ [] ∧ ∀ k, 0 < k → k < pat.length → ¬ pat.drop k <+: pat

section Search

variable [DecidableEq α] {pat x r l : List α}

instance (pat x : List α) : Decidable (Plain pat x) := inferInstanceAs (Decidable (¬ _))

omit [DecidableEq α] in
/-- A delimiter of two different cells. -/
lemma unbordered_pair {a b : α} (h : b ≠ a) : Unbordered [a, b] := by
  refine ⟨List.cons_ne_nil _ _, fun k hk hlt => ?_⟩
  obtain rfl : k = 1 := by
    simp only [List.length_cons, List.length_nil] at hlt
    omega
  simpa using h

omit [DecidableEq α] in
lemma Plain.of_infix {y : List α} (h : Plain pat x) (hy : y <:+: x) : Plain pat y :=
  fun hp => h (hp.trans hy)

/-- The search stops at the end of the first record. -/
lemma search_record (hpat : Unbordered pat) : ∀ {x : List α}, Plain pat x →
    search pat (x ++ pat ++ r) = x.length
  | [], _ => by
      obtain ⟨a, p, rfl⟩ := List.exists_cons_of_ne_nil hpat.1
      rw [List.nil_append, List.cons_append, search, if_pos]
      · rfl
      · rw [List.isPrefixOf_iff_prefix]
        exact List.prefix_append (a :: p) r
  | a :: x, hx => by
      have hno : ¬ pat <+: a :: x ++ (pat ++ r) := by
        intro hp
        rcases Nat.lt_or_ge x.length pat.length with hlt | hge
        · -- The occurrence would end inside the delimiter, or with it.
          rcases Nat.lt_or_ge (a :: x).length pat.length with hlt' | hge'
          · have hcut : pat.drop (a :: x).length <+: pat ++ r := by
              have := hp.drop (a :: x).length
              rwa [List.drop_left] at this
            refine hpat.2 _ (Nat.succ_pos _) hlt' (List.prefix_of_prefix_length_le hcut
              (List.prefix_append pat r) ?_)
            rw [List.length_drop]
            omega
          · exact hx (List.prefix_of_prefix_length_le hp (List.prefix_append _ _) hge').isInfix
        · refine hx (List.prefix_of_prefix_length_le hp (List.prefix_append _ _) ?_).isInfix
          exact Nat.le_succ_of_le hge
      rw [List.append_assoc, List.cons_append, search, if_neg, ← List.append_assoc,
        search_record hpat (hx.of_infix (List.suffix_cons a x).isInfix), List.length_cons]
      rwa [List.isPrefixOf_iff_prefix]

lemma search_joined (hpat : Unbordered pat) (hx : Plain pat x) (xs : List (List α))
    (tail : List α) : search pat (joined pat (x :: xs) tail) = x.length := by
  rw [joined_cons, search_record hpat hx]

lemma search_plain (hpat : Unbordered pat) (hx : Plain pat x) : search pat x = x.length := by
  have hle := search_le_length pat x
  have hlt := mt (search_lt_iff hpat.1).mp hx
  omega

/-- The first record of a block that holds a delimiter. -/
lemma exists_record (hpat : pat ≠ []) (h : pat <:+: l) :
    ∃ x r, l = x ++ pat ++ r ∧ Plain pat x := by
  have hlt := (search_lt_iff hpat).mpr h
  obtain ⟨r, hr⟩ := prefix_drop_search hlt
  refine ⟨l.take (search pat l), r, ?_, ?_⟩
  · rw [List.append_assoc, hr, List.take_append_drop]
  · rintro ⟨s, t, hst⟩
    have hlen : s.length + pat.length ≤ search pat l := by
      have := congrArg List.length hst
      simp only [List.length_append, List.length_take] at this
      omega
    have hpos : 0 < pat.length := List.length_pos_iff.mpr hpat
    have hm : s.length < search pat l := by omega
    refine not_prefix_of_lt_search hm ?_
    have hl : l = s ++ (pat ++ (t ++ l.drop (search pat l))) := by
      conv_lhs => rw [← List.take_append_drop (search pat l) l, ← hst]
      simp only [List.append_assoc]
    rw [hl, List.drop_left]
    exact List.prefix_append _ _

/-- Every block is one of records. -/
theorem exists_joined (hpat : pat ≠ []) (l : List α) :
    ∃ xs tail, l = joined pat xs tail ∧ (∀ x ∈ xs, Plain pat x) ∧ Plain pat tail := by
  by_cases h : pat <:+: l
  · obtain ⟨x, r, hl, hx⟩ := exists_record hpat h
    have hshort : r.length < l.length := by
      have hpos : 0 < pat.length := List.length_pos_iff.mpr hpat
      rw [hl, List.length_append, List.length_append]
      omega
    obtain ⟨xs, tail, hr, hxs, htail⟩ := exists_joined hpat r
    refine ⟨x :: xs, tail, ?_, ?_, htail⟩
    · rw [joined_cons, hl, hr]
    · exact List.forall_mem_cons.mpr ⟨hx, hxs⟩
  · exact ⟨[], l, rfl, fun _ hx => absurd hx List.not_mem_nil, h⟩
termination_by l.length

/-! ## The first cell of a kind -/

/-- Where a search for a single cell cuts a block. -/
lemma cut_at_idxOf {a : α} (h : l.idxOf a ≠ l.length) :
    l = l.take (l.idxOf a) ++ a :: l.drop (l.idxOf a + 1) ∧ a ∉ l.take (l.idxOf a) := by
  have hlt : l.idxOf a < l.length := Nat.lt_of_le_of_ne List.idxOf_le_length h
  refine ⟨?_, fun hmem => ?_⟩
  · conv_lhs => rw [← List.take_append_drop (l.idxOf a) l]
    rw [List.drop_eq_getElem_cons hlt, List.getElem_idxOf hlt]
  · exact Nat.lt_irrefl _ ((List.mem_take_iff_idxOf_lt (List.idxOf_lt_length_iff.mp hlt)).mp hmem)

lemma idxOf_cut {a : α} (h : a ∉ x) : (x ++ a :: r).idxOf a = x.length := by
  rw [List.idxOf_append_of_notMem h, List.idxOf_cons_self, Nat.add_zero]

lemma idxOf_cut_ne {a : α} (h : a ∉ x) : (x ++ a :: r).idxOf a ≠ (x ++ a :: r).length := by
  rw [idxOf_cut h, List.length_append, List.length_cons]
  omega

omit [DecidableEq α] in
/-- A delimiter cannot begin in a part that does not have its first cell. -/
lemma Plain.append_left {a : α} (h : Plain (a :: pat) r) : ∀ {x : List α}, a ∉ x →
    Plain (a :: pat) (x ++ r)
  | [], _ => h
  | c :: x, ha => by
      obtain ⟨hc, hx⟩ := not_or.mp (mt List.mem_cons.mpr ha)
      rw [List.cons_append, Plain, List.infix_cons_iff]
      rintro (hp | hp)
      · exact hc (List.cons_prefix_cons.mp hp).1
      · exact h.append_left hx hp

omit [DecidableEq α] in
lemma plain_reverse : Plain pat.reverse x.reverse ↔ Plain pat x := not_congr List.reverse_infix

omit [DecidableEq α] in
/-- It cannot end in a part that does not have its last cell. -/
lemma Plain.append_right {b : α} (h : Plain (pat ++ [b]) x) (hb : b ∉ r) :
    Plain (pat ++ [b]) (x ++ r) := by
  rw [← plain_reverse, List.reverse_append, List.reverse_append, List.reverse_singleton,
    List.singleton_append] at *
  exact h.append_left (mt List.mem_reverse.mp hb)

omit [DecidableEq α] in
lemma drop_cut {a : α} : (x ++ a :: r).drop (x.length + 1) = r := by
  rw [← List.drop_drop, List.drop_left, List.drop_one, List.tail_cons]

end Search

end Coring
