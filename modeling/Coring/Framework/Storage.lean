import Mathlib.Data.List.TakeDrop
import Mathlib.Tactic.Common

/-!
# Contiguous storage

Two operations on a block of cells: reading a `slice` and `overwrite`-ing one.  They stand
for the memory primitives of a program that keeps its data in an array (`memcpy`, `memmove`,
a string built from a pointer and a length), with the block a list and a pointer an offset
into it.

The lemmas are the frame rules such programs need: an overwrite leaves the length alone when
it stays inside the block, does not disturb a slice before it, and is read back by the slice
it wrote.  `slice_overwrite_append` is the combination every append uses: reading from before
the written cells up to their end gives the old slice followed by what was written.

`load` and `store` are the same two operations on a memory without bounds, where several blocks
live side by side.
-/

namespace Coring

variable {α : Type*}

/-- The `n` cells of `l` from offset `pos` on (fewer if the block ends first). -/
def slice (l : List α) (pos n : ℕ) : List α := (l.drop pos).take n

/-- `l` with the cells from offset `pos` on replaced by `src`. -/
def overwrite (l : List α) (pos : ℕ) (src : List α) : List α :=
  l.take pos ++ src ++ l.drop (pos + src.length)

lemma length_slice {l : List α} {pos n : ℕ} (h : pos + n ≤ l.length) :
    (slice l pos n).length = n := by
  simp only [slice, List.length_take, List.length_drop]
  omega

/-- Dropping from the front of a slice moves its offset. -/
lemma drop_slice (l : List α) (pos n k : ℕ) :
    (slice l pos n).drop k = slice l (pos + k) (n - k) := by
  simp only [slice, List.drop_take, List.drop_drop]

lemma take_slice (l : List α) (pos n k : ℕ) :
    (slice l pos n).take k = slice l pos (min k n) := by
  simp only [slice, List.take_take]

/-- Cells appended behind the block do not show in a slice inside it. -/
lemma slice_append {l : List α} {pos n : ℕ} (h : pos + n ≤ l.length) (r : List α) :
    slice (l ++ r) pos n = slice l pos n := by
  simp only [slice]
  rw [List.drop_append_of_le_length (by omega), List.take_append_of_le_length]
  rw [List.length_drop]
  omega

lemma length_overwrite {l src : List α} {pos : ℕ} (h : pos + src.length ≤ l.length) :
    (overwrite l pos src).length = l.length := by
  simp only [overwrite, List.length_append, List.length_take, List.length_drop]
  omega

/-- Writing back what a slice holds changes nothing. -/
lemma overwrite_slice {l : List α} {pos n : ℕ} (h : pos + n ≤ l.length) :
    overwrite l pos (slice l pos n) = l := by
  rw [overwrite, length_slice h, slice, List.append_assoc]
  conv_rhs => rw [← List.take_append_drop pos l, ← List.take_append_drop n (l.drop pos)]
  rw [List.drop_drop]

/-- Reading from before the written cells up to their end. -/
lemma slice_overwrite_append {l src : List α} {pos n : ℕ} (h : pos + n ≤ l.length) :
    slice (overwrite l (pos + n) src) pos (n + src.length) = slice l pos n ++ src := by
  have hlen : (l.take (pos + n)).length = pos + n := by
    rw [List.length_take]
    omega
  have hdrop : (l.take (pos + n)).drop pos = slice l pos n := by
    rw [slice, List.drop_take]
    congr 1
    omega
  rw [slice, overwrite, List.append_assoc, List.drop_append_of_le_length (by omega), hdrop,
    ← List.append_assoc, List.take_append_of_le_length, List.take_of_length_le]
  · simp only [List.length_append, length_slice h, Nat.le_refl]
  · simp only [List.length_append, length_slice h, Nat.le_refl]

/-- An overwrite does not show in a slice before it. -/
lemma slice_overwrite_of_le {l src : List α} {pos n k : ℕ} (h : pos + n ≤ k) (hk : k ≤ l.length) :
    slice (overwrite l k src) pos n = slice l pos n := by
  have hlen : pos + n ≤ (l.take k).length := by
    rw [List.length_take]
    omega
  rw [overwrite, List.append_assoc, slice_append hlen]
  simp only [slice, List.drop_take, List.take_take]
  rw [Nat.min_eq_left (by omega)]

/-- Cells set one after the other from the end of `l` on, `r` being behind them. -/
lemma foldl_set_range (f : ℕ → α) (x : α) (l : List α) (n : ℕ) (r : List α) :
    (List.range n).foldl (fun l' i => l'.set (l.length + i) (f i)) (l ++ List.replicate n x ++ r)
      = l ++ (List.range n).map f ++ r := by
  induction n generalizing r with
  | zero => rfl
  | succ n ih =>
    have hlen : (l ++ (List.range n).map f).length = l.length + n := by
      rw [List.length_append, List.length_map, List.length_range]
    have hnext : l ++ List.replicate (n + 1) x ++ r = l ++ List.replicate n x ++ (x :: r) := by
      simp only [List.replicate_succ', List.append_assoc, List.singleton_append]
    rw [List.range_succ, List.foldl_append, hnext, ih, List.foldl_cons, List.foldl_nil, ← hlen,
      List.set_append_right _ _ (Nat.le_refl _), Nat.sub_self, List.set_cons_zero]
    simp only [List.map_append, List.map_singleton, List.append_assoc, List.singleton_append]

/-! ## Memory -/

/-- The `n` cells from `addr` on. -/
def load (mem : ℕ → α) (addr n : ℕ) : List α := (List.range n).map fun i => mem (addr + i)

/-- `mem` with `src` stored from `addr` on. -/
def store (mem : ℕ → α) (addr : ℕ) (src : List α) : ℕ → α := fun x =>
  if addr ≤ x then (src[x - addr]?).getD (mem x) else mem x

@[simp] lemma length_load (mem : ℕ → α) (addr n : ℕ) : (load mem addr n).length = n := by
  simp only [load, List.length_map, List.length_range]

lemma load_take (mem : ℕ → α) (addr : ℕ) {k n : ℕ} (h : k ≤ n) :
    (load mem addr n).take k = load mem addr k := by
  rw [load, ← List.map_take, List.take_range, Nat.min_eq_left h, load]

lemma load_store_self (mem : ℕ → α) (addr : ℕ) (src : List α) :
    load (store mem addr src) addr src.length = src := by
  apply List.ext_getElem
  · rw [length_load]
  · intro i h _
    have hi : i < src.length := by simpa only [length_load] using h
    simp only [load, List.getElem_map, List.getElem_range, store, Nat.le_add_right, if_true,
      Nat.add_sub_cancel_left, List.getElem?_eq_getElem hi, Option.getD_some]

/-- A store does not show in a block beside it. -/
lemma load_store_of_disjoint (mem : ℕ → α) {addr addr' k : ℕ} {src : List α}
    (h : addr' + k ≤ addr ∨ addr + src.length ≤ addr') :
    load (store mem addr src) addr' k = load mem addr' k := by
  apply List.map_congr_left
  intro i hi
  have hik := List.mem_range.mp hi
  unfold store
  split
  · have hout : src.length ≤ addr' + i - addr := by omega
    rw [List.getElem?_eq_none hout, Option.getD_none]
  · rfl

end Coring
