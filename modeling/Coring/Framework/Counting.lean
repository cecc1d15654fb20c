import Mathlib.Data.Nat.Notation
import Mathlib.Tactic.Common

/-!
# Counting in a table

Ownership is a matter of counting: how many entries of a table hold a given thing.  A program
changes its tables by adding an entry, by removing one and by overwriting one, and these are the
effects on the count.
-/

namespace Coring

variable {α : Type*} {p : α → Bool} {l : List α} {i : ℕ} {x : α}

lemma countP_set_add (h : l[i]? = some x) (y : α) :
    (l.set i y).countP p + (if p x then 1 else 0) = l.countP p + if p y then 1 else 0 := by
  induction l generalizing i with
  | nil => cases h
  | cons z l ih =>
    cases i with
    | zero =>
      obtain rfl : z = x := by simpa using h
      simp only [List.set_cons_zero, List.countP_cons]
      omega
    | succ i =>
      have hl := ih (i := i) (by simpa using h)
      simp only [List.set_cons_succ, List.countP_cons]
      omega

lemma countP_eraseIdx_add (h : l[i]? = some x) :
    (l.eraseIdx i).countP p + (if p x then 1 else 0) = l.countP p := by
  induction l generalizing i with
  | nil => cases h
  | cons z l ih =>
    cases i with
    | zero =>
      obtain rfl : z = x := by simpa using h
      simp only [List.eraseIdx_cons_zero, List.countP_cons]
    | succ i =>
      have hl := ih (i := i) (by simpa using h)
      simp only [List.eraseIdx_cons_succ, List.countP_cons]
      omega

lemma countP_concat (p : α → Bool) (l : List α) (x : α) :
    (l ++ [x]).countP p = l.countP p + if p x then 1 else 0 := by
  rw [List.countP_append, List.countP_singleton]

/-- A change that does not show in a view of the table leaves the view as it is. -/
lemma map_set_of_eq {β : Type*} (f : α → β) {y : α} (hi : l[i]? = some x)
    (hf : f y = f x) : (l.set i y).map f = l.map f := by
  rw [List.map_set, hf]
  refine List.ext_getElem? fun n => ?_
  rw [List.getElem?_set]
  split
  · next hn =>
    subst hn
    rw [List.length_map, List.getElem?_map, hi, if_pos (List.getElem?_eq_some_iff.mp hi).1]
    rfl
  · rfl

end Coring
