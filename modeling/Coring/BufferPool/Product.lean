import Mathlib.Algebra.Group.Int.Defs
import Coring.BufferPool.Basic

/-!
# The end of a region

`provide_group_contiguous` runs over the region it was given until a pointer reaches
`base + (nbytes_per_block * how_many_blocks)`.  The block size is a `__u16` that is promoted, so
the product is one of two `int`s, and the kernel accepts regions for which an `int` does not hold
it.  C++ leaves that overflow undefined; `intProduct` is the product of two machine words, which is
what a compiler that does not look further makes of it.  Added to a pointer it is negative, and
the loop does not run at all, or, for a region at the bottom of the address space, does not end
where it should.

`provideGroupContiguous_complete_iff` says that the table is complete exactly when the product is
less than `2 ^ 31`.
-/

namespace Coring.BufferPool

/-- `nbytes_per_block * how_many_blocks`, reduced to an `int`. -/
def intProduct (n m : ℕ) : ℤ := Int.bmod (n * m) (2 ^ 32)

/-- `base + (nbytes_per_block * how_many_blocks)`, a pointer of 64 bits. -/
def endOfRegion (base n m : ℕ) : ℕ := ((base + intProduct n m) % 2 ^ 64).toNat

/-- `provide_group_contiguous` from the completion `ret` of its request on: the exception, or the
group with the blocks that the first `fuel` rounds of the loop have added. -/
def provideGroupContiguousInt (fuel : ℕ) (g : Group) (ret : ℤ) (base n m : ℕ) (gid : UInt16) :
    Except ℤ Group :=
  if ret < 0 then .error (-ret)
  else .ok {
    nbytesPerBlock := n
    blocks := g.blocks ++ emplaceBlocks n gid (endOfRegion base n m) fuel base 0 }

variable {base n m : ℕ} {gid : UInt16}

lemma intProduct_of_lt (h : n * m < 2 ^ 31) : intProduct n m = n * m := by
  have hcast : ((n * m : ℕ) : ℤ) = n * m := Int.natCast_mul n m
  exact Int.bmod_eq_of_le_mul_two (by omega) (by omega)

lemma intProduct_of_le (h : 2 ^ 31 ≤ n * m) (hlt : n * m < 2 ^ 32) :
    intProduct n m = n * m - 2 ^ 32 := by
  have hcast : ((n * m : ℕ) : ℤ) = n * m := Int.natCast_mul n m
  have hshift : intProduct n m = Int.bmod (n * m - (2 ^ 32 : ℕ)) (2 ^ 32) :=
    (Int.sub_bmod_right _ _).symm
  rw [hshift, Int.bmod_eq_of_le_mul_two]
  all_goals omega

/-- The loop takes every round that starts in front of `last`. -/
lemma lt_length_emplaceBlocks {last : ℕ} (k : ℕ) {fuel cur i : ℕ} (hk : cur + n * k < last)
    (hfuel : k < fuel) : k < (emplaceBlocks n gid last fuel cur i).length := by
  induction k generalizing fuel cur i with
  | zero =>
    obtain ⟨fuel, rfl⟩ := Nat.exists_eq_succ_of_ne_zero (Nat.pos_iff_ne_zero.mp hfuel)
    rw [emplaceBlocks, if_pos (by omega), List.length_cons]
    omega
  | succ k ih =>
    obtain ⟨fuel, rfl⟩ := Nat.exists_eq_succ_of_ne_zero (Nat.ne_zero_of_lt hfuel)
    rw [Nat.mul_add_one] at hk
    rw [emplaceBlocks, if_pos (by omega), List.length_cons]
    have hrest := @ih fuel (cur + n) ((i + 1) % 2 ^ 16) (by omega) (by omega)
    omega

/-- What the loop leaves when the product overflows: nothing, or more blocks than there are. -/
lemma emplaceBlocks_of_overflow {fuel : ℕ} (hbig : 2 ^ 31 ≤ n * m) (hlt : n * m < 2 ^ 32)
    (hbase : base + n * m ≤ 2 ^ 63) (hfuel : m < fuel) :
    emplaceBlocks n gid (endOfRegion base n m) fuel base 0 = [] ∨
      m < (emplaceBlocks n gid (endOfRegion base n m) fuel base 0).length := by
  have hend : endOfRegion base n m = ((base + (n * m - 2 ^ 32 : ℤ)) % 2 ^ 64).toNat := by
    rw [endOfRegion, intProduct_of_le hbig hlt]
  have hcast : ((n * m : ℕ) : ℤ) = n * m := Int.natCast_mul n m
  by_cases hlow : base + n * m < 2 ^ 32
  · exact .inr (lt_length_emplaceBlocks m (by omega) hfuel)
  · exact .inl (emplaceBlocks_of_le (by omega) gid _ _)

/-- **When the block table is complete.**  The first successful call for a group, on a region in
the address space, leaves one block for each buffer, with its address, size and id, if and only if
the product of the block size and the number of blocks is less than `2 ^ 31`. -/
theorem provideGroupContiguous_complete_iff {fuel : ℕ} {ret : ℤ} (hret : 0 ≤ ret) (hn : 0 < n)
    (hn' : n < 2 ^ 16) (hm : 0 < m) (hm' : m < 2 ^ 16) (hbase : base + n * m ≤ 2 ^ 63)
    (hfuel : m < fuel) :
    provideGroupContiguousInt fuel {} ret base n m gid
      = .ok { nbytesPerBlock := n, blocks := (List.range m).map (block base n gid) } ↔
    n * m < 2 ^ 31 := by
  have hprod : n * m < 2 ^ 16 * 2 ^ 16 := Nat.mul_lt_mul_of_lt_of_lt hn' hm'
  have hcast : ((n * m : ℕ) : ℤ) = n * m := Int.natCast_mul n m
  simp only [provideGroupContiguousInt, if_neg (Int.not_lt.mpr hret), Except.ok.injEq,
    Group.mk.injEq, true_and, List.nil_append]
  constructor
  · intro htable
    by_contra hbig
    obtain hnone | hmore :=
      @emplaceBlocks_of_overflow base n m gid fuel (Nat.le_of_not_lt hbig) hprod hbase hfuel
    · rw [hnone] at htable
      have hlen := congrArg List.length htable
      rw [List.length_map, List.length_range, List.length_nil] at hlen
      omega
    · rw [htable, List.length_map, List.length_range] at hmore
      omega
  · intro hsmall
    have hend : endOfRegion base n m = base + n * m := by
      rw [endOfRegion, intProduct_of_lt hsmall]
      omega
    obtain ⟨extra, rfl⟩ := Nat.exists_eq_add_of_lt hfuel
    have hloop := @emplaceBlocks_eq base n m gid hn hm' (extra + 1) m 0 (Nat.zero_add m)
    rw [Nat.zero_mul, Nat.add_zero base, ← List.range_eq_range'] at hloop
    rw [hend, ← hloop, Nat.add_assoc m]

/-- Two blocks of four bytes. -/
theorem provideGroupContiguous_complete_iff_two :
    provideGroupContiguousInt 3 {} 0 4096 4 2 7
      = .ok { nbytesPerBlock := 4, blocks := (List.range 2).map (block 4096 4 7) } :=
  (provideGroupContiguous_complete_iff (by decide) (by decide) (by decide) (by decide)
    (by decide) (by decide) (by decide)).mpr (by decide)

/-- The largest blocks and as many as the kernel accepts: the product is `-131071` and the table
is empty. -/
theorem provideGroupContiguous_empty_table :
    intProduct 65535 65535 = -131071 ∧
    provideGroupContiguousInt 65536 {} 0 (2 ^ 40) 65535 65535 7
      = .ok { nbytesPerBlock := 65535, blocks := [] } ∧
    provideGroupContiguousInt 65536 {} 0 (2 ^ 40) 65535 65535 7
      ≠ .ok { nbytesPerBlock := 65535,
              blocks := (List.range 65535).map (block (2 ^ 40) 65535 7) } := by
  have hend : endOfRegion (2 ^ 40) 65535 65535 ≤ 2 ^ 40 := by decide
  have hempty : provideGroupContiguousInt 65536 {} 0 (2 ^ 40) 65535 65535 7
      = .ok { nbytesPerBlock := 65535, blocks := [] } := by
    rw [provideGroupContiguousInt, if_neg (by decide), emplaceBlocks_of_le hend]
    rfl
  refine ⟨by decide, hempty, fun heq => ?_⟩
  rw [hempty, Except.ok.injEq, Group.mk.injEq] at heq
  have hlen := congrArg List.length heq.2
  rw [List.length_map, List.length_range] at hlen
  exact absurd hlen (by decide)

end Coring.BufferPool
