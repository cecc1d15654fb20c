import Mathlib.Algebra.Group.Nat.Defs
import Coring.Buffer.Basic

/-!
# The blocks of a buffer pool

`include/coring/buffer_pool.hpp` keeps, for each group of buffers provided to the kernel, a
table of `selected_buffer` objects: a `fixed_buffer` over a piece of the caller's memory,
together with the ids the kernel knows it by.  `provide_group_contiguous` provides a region of
`how_many_blocks` buffers and then adds a block for each of them to the group's table;
`read` waits for a buffer-select read and hands out the block at the index reported in the
completion.

Memory is a function from addresses to bytes.  A `fixed_buffer` is a `buffer_base` whose
container is a view of that memory, so its operations are those of `BufferBase` on the bytes
the view shows, of which only the two indices are the buffer's own.

The product `nbytes_per_block * how_many_blocks` is an `int`; a call in which it does not fit
has no defined behaviour and is left out here (`fits`); `Coring.BufferPool.Product` is about it.
The members `group_id` and `start_buf_id` of `provided_buffer_group` are read by no function.
-/

namespace Coring.BufferPool

/-- `selected_buffer`: the view, the two indices and the ids. -/
structure SelectedBuffer where
  data : ℕ
  size : ℕ
  groupId : UInt16
  bufId : ℕ
  indexRead : ℕ := 0
  indexWrite : ℕ := 0
  deriving Repr, DecidableEq

namespace SelectedBuffer

variable (b : SelectedBuffer) (mem : ℕ → UInt8)

/-- The `buffer_base` part, with the bytes its view shows. -/
def base : BufferBase :=
  { container := load mem b.data b.size, indexRead := b.indexRead, indexWrite := b.indexWrite }

def withIndices (c : BufferBase) : SelectedBuffer :=
  { b with indexRead := c.indexRead, indexWrite := c.indexWrite }

def readableView : List UInt8 := (b.base mem).readableView

def clear : SelectedBuffer := b.withIndices (b.base mem).clear

def hasRead (len : ℕ) : SelectedBuffer := b.withIndices ((b.base mem).hasRead len)

def popString (len : ℕ) : List UInt8 × SelectedBuffer :=
  let (str, c) := (b.base mem).popString len
  (str, b.withIndices c)

def hasWritten (len : ℕ) : SelectedBuffer := b.withIndices ((b.base mem).hasWritten len)

end SelectedBuffer

/-- `detail::provided_buffer_group`. -/
structure Group where
  nbytesPerBlock : ℕ := 0
  blocks : List SelectedBuffer := []
  deriving Repr, DecidableEq

def Group.setBlock (g : Group) (i : ℕ) (b : SelectedBuffer) : Group :=
  { g with blocks := g.blocks.set i b }

/-! ## Providing a region -/

/-- What the kernel is told with one `IORING_OP_PROVIDE_BUFFERS`, buffer by buffer. -/
structure Provided where
  gid : UInt16
  bid : ℕ
  addr : ℕ
  len : ℕ
  deriving Repr, DecidableEq

/-- `io_uring_context::provide_buffers`: the buffers the request names, with ids from
`first_bid` on. -/
def provideBuffers (addr len howMany : ℕ) (gid : UInt16) (firstBid : ℕ) : List Provided :=
  (List.range howMany).map fun b => ⟨gid, firstBid + b, addr + b * len, len⟩

/-- A call `provide_group_contiguous(base, n, m, gid)`. -/
structure Call where
  base : ℕ
  n : ℕ
  m : ℕ
  gid : UInt16
  deriving Repr, DecidableEq

/-- The calls of `provide_group_contiguous` that succeed.  `nbytes_per_block` is a `__u16`; the
kernel refuses a request for no buffer, or for more than `USHRT_MAX`; and the product of the two
is an `int`. -/
def fits (n m : ℕ) : Prop := n < 2 ^ 16 ∧ 0 < m ∧ m < 2 ^ 16 ∧ n * m < 2 ^ 31

instance (n m : ℕ) : Decidable (fits n m) := inferInstanceAs (Decidable (_ ∧ _))

/-- The loop over the region: `cur` runs from `base` to `last` in steps of `n`, with a `__u16`
counting along.  The region has `fuel` blocks at most. -/
def emplaceBlocks (n : ℕ) (gid : UInt16) (last : ℕ) : ℕ → ℕ → ℕ → List SelectedBuffer
  | 0, _, _ => []
  | fuel + 1, cur, i =>
      if cur < last then
        { data := cur, size := n, groupId := gid, bufId := i } ::
          emplaceBlocks n gid last fuel (cur + n) ((i + 1) % 2 ^ 16)
      else []

/-- `provide_group_contiguous` after the request has completed: the group's block size is set
and its table extended. -/
def provideGroupContiguous (g : Group) (base n m : ℕ) (gid : UInt16) : Group :=
  { nbytesPerBlock := n, blocks := g.blocks ++ emplaceBlocks n gid (base + n * m) m base 0 }

/-- The block the loop makes for id `b`. -/
def block (base n : ℕ) (gid : UInt16) (b : ℕ) : SelectedBuffer :=
  { data := base + b * n, size := n, groupId := gid, bufId := b }

lemma emplaceBlocks_of_le {n last cur : ℕ} (h : last ≤ cur) (gid : UInt16) (fuel i : ℕ) :
    emplaceBlocks n gid last fuel cur i = [] := by
  cases fuel with
  | zero => rfl
  | succ fuel => rw [emplaceBlocks, if_neg (Nat.not_lt.mpr h)]

/-- The loop makes one block for each id, in order, unless the blocks are empty; then it has come
to its end, and more `fuel` changes nothing. -/
theorem emplaceBlocks_eq {base n m : ℕ} {gid : UInt16} (hn : 0 < n) (hm : m < 2 ^ 16)
    (extra k i : ℕ) (hi : i + k = m) :
    emplaceBlocks n gid (base + n * m) (k + extra) (base + i * n) i =
      (List.range' i k).map (block base n gid) := by
  induction k generalizing i with
  | zero =>
    have hend : base + n * m ≤ base + i * n :=
      Nat.le_of_eq (by rw [← hi, Nat.add_zero, Nat.mul_comm])
    exact emplaceBlocks_of_le hend gid _ _
  | succ k ih =>
    have hlt : base + i * n < base + n * m := by
      have : n * i < n * m := Nat.mul_lt_mul_of_pos_left (by omega) hn
      rw [Nat.mul_comm i n]
      omega
    have hnext : base + i * n + n = base + (i + 1) * n := by
      rw [Nat.add_mul, Nat.one_mul, Nat.add_assoc]
    rw [Nat.add_right_comm, emplaceBlocks, if_pos hlt, hnext,
      Nat.mod_eq_of_lt (by omega : i + 1 < 2 ^ 16), ih (i + 1) (by omega), List.range'_succ,
      List.map_cons]
    rfl

/-- The blocks that `provide_group_contiguous` adds. -/
def newBlocks (base n m : ℕ) (gid : UInt16) : List SelectedBuffer :=
  if n = 0 then [] else (List.range m).map (block base n gid)

lemma blocks_provideGroupContiguous (g : Group) (base : ℕ) {n m : ℕ} (gid : UInt16)
    (h : fits n m) :
    (provideGroupContiguous g base n m gid).blocks = g.blocks ++ newBlocks base n m gid := by
  unfold newBlocks
  split
  · subst n
    obtain ⟨m, rfl⟩ := Nat.exists_eq_succ_of_ne_zero (Nat.pos_iff_ne_zero.mp h.2.1)
    simp [provideGroupContiguous, emplaceBlocks]
  · rename_i hn
    have hloop : emplaceBlocks n gid (base + n * m) m (base + 0 * n) 0 =
        (List.range' 0 m).map (block base n gid) :=
      emplaceBlocks_eq (Nat.pos_of_ne_zero hn) h.2.2.1 0 m 0 (Nat.zero_add m)
    rw [Nat.zero_mul, Nat.add_zero, ← List.range_eq_range'] at hloop
    rw [provideGroupContiguous, hloop]

lemma newBlocks_getElem? {base n m b : ℕ} {gid : UInt16} (hn : 0 < n) (hb : b < m) :
    (newBlocks base n m gid)[b]? = some (block base n gid b) := by
  rw [newBlocks, if_neg (by omega), List.getElem?_map, List.getElem?_range hb]
  rfl

lemma eq_block_of_newBlocks {base n m i : ℕ} {gid : UInt16} {b : SelectedBuffer}
    (h : (newBlocks base n m gid)[i]? = some b) : b = block base n gid i := by
  unfold newBlocks at h
  split at h
  · cases h
  · rw [List.getElem?_map] at h
    obtain ⟨j, hj, rfl⟩ := Option.map_eq_some_iff.mp h
    obtain ⟨hlt, rfl⟩ := List.getElem?_eq_some_iff.mp hj
    rw [List.getElem_range]

/-! ## Reading -/

/-- `IORING_CQE_BUFFER_SHIFT`. -/
def cqeBufferShift : ℕ := 16

/-- The flags of a completion that selected buffer `bid`: `IORING_CQE_F_BUFFER`, and the id in
the upper half. -/
def cqeFlags (bid : ℕ) : ℕ := bid <<< cqeBufferShift ||| 1

/-- The completion selected a buffer (`IORING_CQE_F_BUFFER` is bit 0). -/
def selectedBuffer (flags : ℕ) : Bool := flags % 2 = 1

/-- `io_awaitable_res_flag`'s `await_resume`, second component. -/
def flagOf (flags : ℕ) : ℕ := flags >>> cqeBufferShift

lemma cqeFlags_eq (bid : ℕ) : cqeFlags bid = bid * 2 ^ 16 + 1 := by
  rw [cqeFlags, cqeBufferShift, ← Nat.shiftLeft_add_eq_or_of_lt (by decide : 1 < 2 ^ 16),
    Nat.shiftLeft_eq]

@[simp] lemma flagOf_cqeFlags (bid : ℕ) : flagOf (cqeFlags bid) = bid := by
  rw [cqeFlags_eq, flagOf, cqeBufferShift, Nat.shiftRight_eq_div_pow]
  omega

@[simp] lemma selectedBuffer_cqeFlags (bid : ℕ) : selectedBuffer (cqeFlags bid) = true := by
  rw [cqeFlags_eq, selectedBuffer, decide_eq_true_eq]
  omega

/-- How `buffer_pool::read` ends. -/
inductive ReadOutcome
  /-- A `std::system_error` with this code. -/
  | threw (code : ℤ)
  /-- `"wrong group id for buffer selection"`. -/
  | wrongGroup
  /-- A resource for the block at this index; the group as it is then. -/
  | returned (g : Group) (index : ℕ)
  /-- The index is outside the table. -/
  | undefined
  deriving Repr, DecidableEq

/-- `buffer_pool::read` from the completion on. -/
def afterRead (mem : ℕ → UInt8) (g : Group) (res : ℤ) (flags : ℕ) : ReadOutcome :=
  let flag := flagOf flags
  if res ≤ 0 then .threw (-res)
  else
    match g.blocks[flag]? with
    | some b => .returned (g.setBlock flag (b.hasWritten mem res.toNat)) flag
    | none => .undefined

end Coring.BufferPool
