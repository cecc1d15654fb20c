import Mathlib.Data.List.Basic
import Mathlib.Order.Lattice
import Mathlib.Tactic.Common

/-!
# Sorted maps

A finite map kept as its entries in the order of their keys, each key once: what `std::map` is to
a program that looks keys up, assigns values to them and goes through the entries in order.

An assignment changes what is found at one key (`SortedMap.find_assign`), and a map is rebuilt by
assigning its entries one after another (`SortedMap.assignAll_entries`).
-/

namespace Coring

/-- The entries of a map, in the order of their keys. -/
structure SortedMap (κ υ : Type) [LinearOrder κ] where
  entries : List (κ × υ)
  sorted : entries.Pairwise fun p q => p.1 < q.1

namespace SortedMap

variable {κ υ : Type} [LinearOrder κ]

def empty : SortedMap κ υ := ⟨[], List.Pairwise.nil⟩

/-- `v` at the key `k`, in the entries of a map. -/
def assignEntry (k : κ) (v : υ) : List (κ × υ) → List (κ × υ)
  | [] => [(k, v)]
  | p :: ps =>
      if k < p.1 then (k, v) :: p :: ps
      else if p.1 < k then p :: assignEntry k v ps
      else (k, v) :: ps

lemma mem_assignEntry {k : κ} {v : υ} {q : κ × υ} : ∀ {ps : List (κ × υ)},
    q ∈ assignEntry k v ps → q = (k, v) ∨ q ∈ ps
  | [], h => .inl (List.mem_singleton.mp h)
  | p :: ps, h => by
      rw [assignEntry] at h
      split at h
      · exact List.mem_cons.mp h
      · split at h
        · obtain rfl | h := List.mem_cons.mp h
          · exact .inr List.mem_cons_self
          · exact (mem_assignEntry h).imp_right (List.mem_cons_of_mem p)
        · exact (List.mem_cons.mp h).imp_right (List.mem_cons_of_mem p)

lemma pairwise_assignEntry {k : κ} {v : υ} : ∀ {ps : List (κ × υ)},
    ps.Pairwise (fun p q => p.1 < q.1) →
    (assignEntry k v ps).Pairwise fun p q => p.1 < q.1
  | [], _ => List.pairwise_singleton _ _
  | p :: ps, h => by
      obtain ⟨hp, hps⟩ := List.pairwise_cons.mp h
      rw [assignEntry]
      split
      · next hlt =>
        exact List.pairwise_cons.mpr
          ⟨List.forall_mem_cons.mpr ⟨hlt, fun q hq => hlt.trans (hp q hq)⟩, h⟩
      · next hge =>
        split
        · next hgt =>
          refine List.pairwise_cons.mpr ⟨fun q hq => ?_, pairwise_assignEntry hps⟩
          obtain rfl | hq := mem_assignEntry hq
          · exact hgt
          · exact hp q hq
        · next hle =>
          obtain rfl := le_antisymm (not_lt.mp hle) (not_lt.mp hge)
          exact List.pairwise_cons.mpr ⟨hp, hps⟩

/-- `m[k] = v`. -/
def assign (m : SortedMap κ υ) (k : κ) (v : υ) : SortedMap κ υ :=
  ⟨assignEntry k v m.entries, pairwise_assignEntry m.sorted⟩

/-- The value at a key. -/
def find (m : SortedMap κ υ) (k : κ) : Option υ := (m.entries.find? (·.1 = k)).map (·.2)

@[ext] lemma ext {m m' : SortedMap κ υ} (h : m.entries = m'.entries) : m = m' := by
  cases m
  cases m'
  cases h
  rfl

instance [DecidableEq υ] : DecidableEq (SortedMap κ υ) := fun m m' =>
  decidable_of_iff (m.entries = m'.entries) ⟨ext, fun h => h ▸ rfl⟩

/-! ## Look-ups -/

@[simp] lemma find_empty (k : κ) : (empty : SortedMap κ υ).find k = none := rfl

lemma find?_assignEntry (k k' : κ) (v : υ) : ∀ {ps : List (κ × υ)},
    ps.Pairwise (fun p q => p.1 < q.1) →
    ((assignEntry k v ps).find? (·.1 = k')).map (·.2)
      = if k = k' then some v else (ps.find? (·.1 = k')).map (·.2)
  | [], _ => by
      by_cases h : k = k'
      · simp [assignEntry, h]
      · simp [assignEntry, h]
  | p :: ps, h => by
      obtain ⟨hp, hps⟩ := List.pairwise_cons.mp h
      rw [assignEntry]
      split
      · by_cases hk : k = k'
        · simp [hk]
        · simp [List.find?_cons, hk]
      · next hge =>
        split
        · next hgt =>
          by_cases hpk : p.1 = k'
          · have hk : k ≠ k' := by
              rintro rfl
              exact absurd hpk hgt.ne
            simp [hpk, hk]
          · rw [List.find?_cons_of_neg (by simpa using hpk), find?_assignEntry k k' v hps,
              List.find?_cons_of_neg (by simpa using hpk)]
        · next hle =>
          have heq : p.1 = k := le_antisymm (not_lt.mp hge) (not_lt.mp hle)
          by_cases hk : k = k'
          · simp [hk]
          · simp [heq, hk]

/-- Only the key that is assigned changes its value. -/
lemma find_assign (m : SortedMap κ υ) (k k' : κ) (v : υ) :
    (m.assign k v).find k' = if k = k' then some v else m.find k' :=
  find?_assignEntry k k' v m.sorted

/-! ## Entries -/

/-- A key above all others goes to the end. -/
lemma assignEntry_of_forall_lt {k : κ} {v : υ} : ∀ {ps : List (κ × υ)},
    (∀ p ∈ ps, p.1 < k) → assignEntry k v ps = ps ++ [(k, v)]
  | [], _ => rfl
  | p :: ps, h => by
      obtain ⟨hp, hps⟩ := List.forall_mem_cons.mp h
      rw [assignEntry, if_neg hp.not_gt, if_pos hp, assignEntry_of_forall_lt hps,
        List.cons_append]

/-- The map after assigning the entries of a list, one after another. -/
def assignAll (m : SortedMap κ υ) (ps : List (κ × υ)) : SortedMap κ υ :=
  ps.foldl (fun m p => m.assign p.1 p.2) m

lemma entries_assignAll : ∀ {ps : List (κ × υ)} {m : SortedMap κ υ},
    (m.entries ++ ps).Pairwise (fun p q => p.1 < q.1) →
    (m.assignAll ps).entries = m.entries ++ ps
  | [], m, _ => (List.append_nil m.entries).symm
  | p :: ps, m, h => by
      have hlt : ∀ q ∈ m.entries, q.1 < p.1 := fun q hq =>
        (List.pairwise_append.mp h).2.2 q hq p List.mem_cons_self
      have hm : (m.assign p.1 p.2).entries = m.entries ++ [p] := assignEntry_of_forall_lt hlt
      have hnext : ((m.assign p.1 p.2).entries ++ ps).Pairwise fun p q => p.1 < q.1 := by
        rwa [hm, List.append_assoc]
      calc (m.assignAll (p :: ps)).entries
          = ((m.assign p.1 p.2).assignAll ps).entries := rfl
        _ = (m.assign p.1 p.2).entries ++ ps := entries_assignAll hnext
        _ = m.entries ++ p :: ps := by rw [hm, List.append_assoc, List.singleton_append]

lemma find_assignAll_of_forall_ne {k : κ} : ∀ {ps : List (κ × υ)} {m : SortedMap κ υ},
    (∀ p ∈ ps, p.1 ≠ k) → (m.assignAll ps).find k = m.find k
  | [], _, _ => rfl
  | p :: ps, m, h => by
      obtain ⟨hp, hps⟩ := List.forall_mem_cons.mp h
      calc (m.assignAll (p :: ps)).find k
          = ((m.assign p.1 p.2).assignAll ps).find k := rfl
        _ = (m.assign p.1 p.2).find k := find_assignAll_of_forall_ne hps
        _ = m.find k := by rw [find_assign, if_neg hp]

/-- Assigning the entries of another map: its values go before the ones that were there. -/
lemma find_assignAll {k : κ} : ∀ {ps : List (κ × υ)} {m : SortedMap κ υ},
    ps.Pairwise (fun p q => p.1 < q.1) →
    (m.assignAll ps).find k = ((ps.find? (·.1 = k)).map (·.2)).or (m.find k)
  | [], _, _ => rfl
  | p :: ps, m, h => by
      obtain ⟨hp, hps⟩ := List.pairwise_cons.mp h
      calc (m.assignAll (p :: ps)).find k
          = ((m.assign p.1 p.2).assignAll ps).find k := rfl
        _ = (((p :: ps).find? (·.1 = k)).map (·.2)).or (m.find k) := by
          by_cases hk : p.1 = k
          · subst hk
            rw [find_assignAll_of_forall_ne fun q hq => (hp q hq).ne', find_assign, if_pos rfl,
              List.find?_cons_of_pos (by simp), Option.map_some, Option.some_or]
          · rw [find_assignAll hps, find_assign, if_neg hk,
              List.find?_cons_of_neg (by simpa using hk)]

/-- A map is rebuilt from its entries. -/
theorem assignAll_entries (m : SortedMap κ υ) : empty.assignAll m.entries = m :=
  ext (entries_assignAll (m := empty) m.sorted)

end SortedMap

end Coring
