import Coring.Buffer.Fixed
import Coring.Buffer.Integers

/-!
# The indices of a buffer over a run

The sizes a buffer reports are differences of two `size_t` indices and of the size of its
container, and they are passed on to `::memcpy` and to the kernel.  Here the indices are the
words they are in the source, for both kinds of buffer, and an access to memory that is not inside
the container has no result (`none`); so that nothing wraps around and nothing is written outside
is something to be proved.

The invariant is `Inv`: the indices are in order and inside the container.  Under it every
operation computes what the one of `Coring.Buffer.Basic` with natural indices computes
(`toBase`), and the facts about those are used here.  `indices_in_range` puts it together for all
runs from a fresh buffer.
-/

namespace Coring

open FlexBuffer

/-- A `flex_buffer` or a `fixed_buffer`. -/
structure IndexedBuffer where
  kind : BufferKind
  container : List UInt8
  indexRead : BitVec 64 := 0
  indexWrite : BitVec 64 := 0
  deriving DecidableEq

/-- `std::vector<char>::max_size()`. -/
def maxSize : ℕ := 2 ^ 63 - 1

namespace IndexedBuffer

/-- A new buffer: `flex_buffer(int init_size)`, or a `fixed_buffer` on memory of any size. -/
inductive Fresh : IndexedBuffer → Prop
  | flex (initSize : ℕ) (h : initSize < 2 ^ 31) :
      Fresh { kind := .flex, container := List.replicate initSize 0 }
  | fixed (memory : List UInt8) (h : memory.length < 2 ^ 64) :
      Fresh { kind := .fixed, container := memory }

variable (b : IndexedBuffer)

def size : BitVec 64 := BitVec.ofNat 64 b.container.length

def readable : BitVec 64 := b.indexWrite - b.indexRead

def writable : BitVec 64 := b.size - b.indexWrite

def clear : IndexedBuffer := { b with indexRead := 0, indexWrite := 0 }

def hasRead (len : BitVec 64) : IndexedBuffer :=
  if len = b.readable then b.clear else { b with indexRead := b.indexRead + len }

def hasWritten (len : BitVec 64) : IndexedBuffer := { b with indexWrite := b.indexWrite + len }

/-- The `len` bytes from `front()` on. -/
def front (len : BitVec 64) : Option (List UInt8) :=
  if b.indexRead.toNat + len.toNat ≤ b.container.length then
    some (slice b.container b.indexRead.toNat len.toNat)
  else none

/-- Bytes stored from `back()` on. -/
def storeAtBack (src : List UInt8) : Option IndexedBuffer :=
  if b.indexWrite.toNat + src.length ≤ b.container.length then
    some { b with container := overwrite b.container b.indexWrite.toNat src }
  else none

def popString (len : BitVec 64) : Option (IndexedBuffer × List UInt8) := do
  let len := if len > b.readable then b.readable else len
  let ret ← b.front len
  return (b.hasRead len, ret)

/-- `pop_int`, its assertion being up to the caller. -/
def popInt (host : ByteOrder) (t : IntType) : Option (IndexedBuffer × IntValue) := do
  let ret ← b.front (BitVec.ofNat 64 t.bytes)
  return (b.hasRead (BitVec.ofNat 64 t.bytes), networkToHost host (.ofMemory host t ret))

/-- The first half of `make_room`.  The destination of the `::memmove` is its source. -/
def compact : Option IndexedBuffer :=
  if b.indexRead > 0 then do
    let nowHave := b.readable
    let moved ← b.front nowHave
    return { b with
      container := overwrite b.container b.indexRead.toNat moved
      indexRead := 0
      indexWrite := nowHave }
  else some b

/-- `container_.resize(n)`: `none` for `std::length_error`, or `std::bad_alloc` if memory is not
`granted`, which leave the vector as it was. -/
def resizeTo (granted : Bool) (n : BitVec 64) : Option IndexedBuffer :=
  if b.container.length < n.toNat ∧ (maxSize < n.toNat ∨ granted = false) then none
  else some { b with container := resize b.container n.toNat }

/-- The buffer `make_room` leaves, and whether it returns. -/
def makeRoom (granted : Bool) (want : BitVec 64) : Option (IndexedBuffer × Bool) := do
  let b ← b.compact
  if b.writable < want then
    match b.kind with
    | .fixed => return (b, false)
    | .flex =>
      match b.resizeTo granted (b.indexWrite + want) with
      | some grown => return (grown, true)
      | none => return (b, false)
  else return (b, true)

def emplaceBack (ch : UInt8) : Option IndexedBuffer := do
  let b ← b.storeAtBack [ch]
  return b.hasWritten 1

/-- `push_back(char)`: the buffer it leaves, and whether it returns. -/
def pushBackChar (granted : Bool) (ch : UInt8) : Option (IndexedBuffer × Bool) := do
  match ← b.makeRoom granted 1 with
  | (b, true) => return (← b.emplaceBack ch, true)
  | (b, false) => return (b, false)

/-- `push_back(const void *src, size_t len)`. -/
def pushBack (granted : Bool) (src : List UInt8) : Option (IndexedBuffer × Bool) := do
  let len := BitVec.ofNat 64 src.length
  match ← b.makeRoom granted len with
  | (b, true) => return ((← b.storeAtBack src).hasWritten len, true)
  | (b, false) => return (b, false)

def pushBackString (granted : Bool) (str : List UInt8) : Option (IndexedBuffer × Bool) :=
  b.pushBack granted str

/-! ## Runs -/

inductive Op
  | makeRoom (granted : Bool) (want : BitVec 64)
  | pushBackChar (granted : Bool) (ch : UInt8)
  | pushBack (granted : Bool) (src : List UInt8)
  | pushBackString (granted : Bool) (str : List UInt8)
  | emplaceBack (ch : UInt8)
  | popString (len : BitVec 64)
  | popInt (t : IntType)
  | hasRead (len : BitVec 64)
  | hasWritten (len : BitVec 64)
  | clear
  deriving DecidableEq

/-- What a caller has to see to. -/
def Permitted : Op → Prop
  | .makeRoom _ want => want.toNat < 2 ^ 62
  | .pushBack _ src | .pushBackString _ src => src.length < 2 ^ 62
  | .emplaceBack _ => 1 ≤ b.writable
  | .popInt t => t.bytes ≤ b.readable.toNat
  | .hasRead len => len ≤ b.readable
  | .hasWritten len => len ≤ b.writable
  | .pushBackChar _ _ | .popString _ | .clear => True

instance (op : Op) : Decidable (b.Permitted op) :=
  match op with
  | .makeRoom _ want => inferInstanceAs (Decidable (want.toNat < 2 ^ 62))
  | .pushBack _ src | .pushBackString _ src => inferInstanceAs (Decidable (src.length < 2 ^ 62))
  | .emplaceBack _ => inferInstanceAs (Decidable (1 ≤ b.writable))
  | .popInt t => inferInstanceAs (Decidable (t.bytes ≤ b.readable.toNat))
  | .hasRead len => inferInstanceAs (Decidable (len ≤ b.readable))
  | .hasWritten len => inferInstanceAs (Decidable (len ≤ b.writable))
  | .pushBackChar _ _ | .popString _ | .clear => inferInstanceAs (Decidable True)

/-- The buffer an operation leaves, also one that throws; `none` if it has touched memory outside
the container. -/
def apply (host : ByteOrder) : Op → Option IndexedBuffer
  | .makeRoom granted want => (b.makeRoom granted want).map Prod.fst
  | .pushBackChar granted ch => (b.pushBackChar granted ch).map Prod.fst
  | .pushBack granted src => (b.pushBack granted src).map Prod.fst
  | .pushBackString granted str => (b.pushBackString granted str).map Prod.fst
  | .emplaceBack ch => b.emplaceBack ch
  | .popString len => (b.popString len).map Prod.fst
  | .popInt t => (b.popInt host t).map Prod.fst
  | .hasRead len => some (b.hasRead len)
  | .hasWritten len => some (b.hasWritten len)
  | .clear => some b.clear

def machine (host : ByteOrder) : Machine IndexedBuffer Op where
  step b op := if b.Permitted op then b.apply host op else none

/-- There is room for so many bytes beside the readable ones, or there can be in a vector that is
given the memory. -/
def HasRoom (granted : Bool) (want : ℕ) : Prop :=
  b.readable.toNat + want ≤ b.container.length ∨
    b.kind = .flex ∧ b.readable.toNat + want ≤ maxSize ∧ granted = true

/-! ## The same buffer with natural indices -/

def toBase : BufferBase := ⟨b.container, b.indexRead.toNat, b.indexWrite.toNat⟩

/-- The indices are in order and inside the container, whose size is a `size_t` and at most
`max_size()` for a vector. -/
structure Inv : Prop where
  inRange : b.toBase.InRange
  size_lt : b.container.length < 2 ^ 64
  size_le : b.kind = .flex → b.container.length ≤ maxSize

variable {b}

lemma toNat_size (h : b.Inv) : b.size.toNat = b.container.length := by
  rw [size, BitVec.toNat_ofNat, Nat.mod_eq_of_lt h.size_lt]

/-- `readable()` does not wrap. -/
lemma toNat_readable (h : b.Inv) : b.readable.toNat = b.toBase.readable :=
  BitVec.toNat_sub_of_le (BitVec.le_def.mpr h.inRange.1)

/-- Neither does `writable()`. -/
lemma toNat_writable (h : b.Inv) : b.writable.toNat = b.toBase.writable := by
  have hle : b.indexWrite ≤ b.size := by
    rw [BitVec.le_def, toNat_size h]
    exact h.inRange.2
  rw [writable, BitVec.toNat_sub_of_le hle, toNat_size h]
  rfl

/-- What keeps the kind and the size of the container keeps the invariant if it keeps the indices
in range. -/
lemma Inv.of_inRange (h : b.Inv) {c : IndexedBuffer} (hkind : c.kind = b.kind)
    (hlen : c.container.length = b.container.length) (hrange : c.toBase.InRange) : c.Inv where
  inRange := hrange
  size_lt := hlen ▸ h.size_lt
  size_le hflex := hlen ▸ h.size_le (hkind ▸ hflex)

lemma front_eq (h : b.Inv) {len : BitVec 64} (hlen : len ≤ b.readable) :
    b.front len = some (slice b.container b.indexRead.toNat len.toNat) := by
  have hread : b.toBase.indexRead + b.toBase.readable ≤ b.container.length :=
    h.inRange.read_add_readable_le
  rw [BitVec.le_def, toNat_readable h] at hlen
  rw [front, if_pos]
  exact Nat.le_trans (Nat.add_le_add_left hlen _) hread

/-! ## What the operations do -/

lemma toBase_hasRead (h : b.Inv) {len : BitVec 64} (hlen : len ≤ b.readable) :
    (b.hasRead len).toBase = b.toBase.hasRead len.toNat := by
  have hle : len.toNat ≤ b.toBase.readable := by
    rwa [BitVec.le_def, toNat_readable h] at hlen
  have hiff : len = b.readable ↔ len.toNat = b.toBase.readable := by
    rw [← toNat_readable h, BitVec.toNat_inj]
  have hadd : (b.indexRead + len).toNat = b.indexRead.toNat + len.toNat := by
    apply BitVec.toNat_add_of_lt
    have hw : b.toBase.indexRead + b.toBase.readable ≤ b.container.length :=
      h.inRange.read_add_readable_le
    have hlt := h.size_lt
    change b.toBase.indexRead + len.toNat < 2 ^ 64
    omega
  rw [hasRead, BufferBase.hasRead]
  by_cases heq : len = b.readable
  · rw [if_pos heq, if_pos (hiff.mp heq)]
    rfl
  · rw [if_neg heq, if_neg (mt hiff.mpr heq)]
    simp only [toBase, hadd]

lemma Inv.hasRead (h : b.Inv) {len : BitVec 64} (hlen : len ≤ b.readable) :
    (b.hasRead len).Inv := by
  have hle : len.toNat ≤ b.toBase.readable := by
    rwa [BitVec.le_def, toNat_readable h] at hlen
  have hrange := h.inRange.hasRead hle
  rw [← toBase_hasRead h hlen] at hrange
  refine h.of_inRange ?_ ?_ hrange
  all_goals unfold IndexedBuffer.hasRead; split <;> rfl

lemma Inv.clear (h : b.Inv) : b.clear.Inv :=
  h.of_inRange rfl rfl ⟨Nat.le_refl _, Nat.zero_le _⟩

/-- Counting bytes behind the write index that fit into the container. -/
lemma toNat_indexWrite_add (h : b.Inv) {len : BitVec 64} (hlen : len ≤ b.writable) :
    (b.indexWrite + len).toNat = b.indexWrite.toNat + len.toNat ∧
      b.indexWrite.toNat + len.toNat ≤ b.container.length := by
  rw [BitVec.le_def, toNat_writable h] at hlen
  have hle : b.indexWrite.toNat ≤ b.container.length := h.inRange.2
  have hlt := h.size_lt
  simp only [BufferBase.writable, BufferBase.size, toBase] at hlen
  exact ⟨BitVec.toNat_add_of_lt (by omega), by omega⟩

lemma Inv.hasWritten (h : b.Inv) {len : BitVec 64} (hlen : len ≤ b.writable) :
    (b.hasWritten len).Inv := by
  obtain ⟨hadd, hle⟩ := toNat_indexWrite_add h hlen
  have hrw : b.indexRead.toNat ≤ b.indexWrite.toNat := h.inRange.1
  refine h.of_inRange rfl rfl ⟨?_, ?_⟩
  · simp only [toBase, IndexedBuffer.hasWritten, hadd]
    omega
  · change (b.indexWrite + len).toNat ≤ b.container.length
    rwa [hadd]

/-- Bytes that fit are stored inside the container. -/
lemma storeAtBack_spec (h : b.Inv) {src : List UInt8} (hlt : src.length < 2 ^ 64)
    (hfit : BitVec.ofNat 64 src.length ≤ b.writable) :
    ∃ c, b.storeAtBack src = some c ∧ c.Inv ∧ c.writable = b.writable := by
  have hle := (toNat_indexWrite_add h hfit).2
  rw [BitVec.toNat_ofNat, Nat.mod_eq_of_lt hlt] at hle
  have hlen := length_overwrite hle
  refine ⟨_, if_pos hle, h.of_inRange rfl hlen ?_, ?_⟩
  · exact ⟨h.inRange.1, by simpa only [toBase, BufferBase.size, hlen] using h.inRange.2⟩
  · simp only [writable, size, hlen]

/-! ## Making room -/

lemma compact_spec (h : b.Inv) :
    ∃ c, b.compact = some c ∧ c.kind = b.kind ∧ c.container = b.container ∧
      c.toBase = FlexBuffer.compact b.toBase := by
  have hread : b.indexRead.toNat + b.toBase.readable ≤ b.container.length :=
    h.inRange.read_add_readable_le
  have hiff : b.indexRead > 0 ↔ b.toBase.indexRead > 0 := BitVec.lt_def
  by_cases hpos : b.indexRead > 0
  · have hsame := overwrite_slice hread
    refine ⟨{ b with indexRead := 0, indexWrite := b.readable }, ?_, rfl, rfl, ?_⟩
    · simp only [compact, if_pos hpos, front_eq h (BitVec.le_refl _), toNat_readable h,
        Option.bind_eq_bind, Option.bind_some, hsame]
      rfl
    · rw [FlexBuffer.compact, if_pos (hiff.mp hpos)]
      change BufferBase.mk b.container 0 b.readable.toNat = ⟨overwrite b.container
        b.indexRead.toNat (slice b.container b.indexRead.toNat b.toBase.readable), 0, _⟩
      rw [hsame, toNat_readable h]
  · refine ⟨b, if_neg hpos, rfl, rfl, ?_⟩
    rw [FlexBuffer.compact, if_neg (mt hiff.mpr hpos)]

/-- `resize` is asked for more than there is, by a sum that does not wrap; it either leaves the
vector as it was or grows it. -/
lemma resizeTo_cases (h : b.Inv) (hflex : b.kind = .flex) (granted : Bool) {want : BitVec 64}
    (hwant : want.toNat < 2 ^ 62) (hlt : b.writable < want) :
    b.resizeTo granted (b.indexWrite + want) = none ∨
    ∃ c, b.resizeTo granted (b.indexWrite + want) = some c ∧ c.Inv ∧
      c.toBase = { b.toBase with
        container := resize b.container (b.indexWrite.toNat + want.toNat) } := by
  have hsize : b.container.length ≤ maxSize := h.size_le hflex
  obtain ⟨hrw, hws⟩ : b.indexRead.toNat ≤ b.indexWrite.toNat ∧
    b.indexWrite.toNat ≤ b.container.length := h.inRange
  have hsum : (b.indexWrite + want).toNat = b.indexWrite.toNat + want.toNat :=
    BitVec.toNat_add_of_lt (by rw [maxSize] at hsize; omega)
  have hmore : b.container.length < (b.indexWrite + want).toNat := by
    rw [BitVec.lt_def, toNat_writable h] at hlt
    simp only [BufferBase.writable, BufferBase.size, toBase] at hlt
    omega
  by_cases hrefused : b.container.length < (b.indexWrite + want).toNat ∧
      (maxSize < (b.indexWrite + want).toNat ∨ granted = false)
  · exact .inl (if_pos hrefused)
  · have hmax : (b.indexWrite + want).toNat ≤ maxSize := by
      by_contra hgt
      exact hrefused ⟨hmore, .inl (Nat.lt_of_not_le hgt)⟩
    refine .inr ⟨_, if_neg hrefused, ⟨⟨hrw, ?_⟩, ?_, fun _ => ?_⟩, ?_⟩
    · change b.indexWrite.toNat ≤ (resize b.container (b.indexWrite + want).toNat).length
      rw [length_resize, hsum]
      omega
    · simp only [length_resize]
      exact BitVec.isLt _
    · simpa only [length_resize] using hmax
    · rw [← hsum]
      rfl

/-- `make_room` touches nothing outside the container.  If it returns it leaves what the one with
natural indices leaves, and if it throws it has rebased the indices. -/
lemma makeRoom_cases (h : b.Inv) (granted : Bool) {want : BitVec 64}
    (hwant : want.toNat < 2 ^ 62) :
    ∃ c r, b.makeRoom granted want = some (c, r) ∧ c.Inv ∧
      (r = true → (c.toBase, true) = b.kind.makeRoom b.toBase want.toNat) ∧
      (r = false → c.toBase = FlexBuffer.compact b.toBase) := by
  obtain ⟨c, hc, hkind, hsame, hbase⟩ := compact_spec h
  have hcInv : c.Inv := h.of_inRange hkind (congrArg List.length hsame)
    (hbase ▸ FixedBuffer.compact_inRange h.inRange)
  have hroom : c.writable < want ↔ c.toBase.writable < want.toNat := by
    rw [BitVec.lt_def, toNat_writable hcInv]
  have hthrows : c.Inv ∧ (false = true → (c.toBase, true) = b.kind.makeRoom b.toBase want.toNat) ∧
      (false = false → c.toBase = FlexBuffer.compact b.toBase) :=
    ⟨hcInv, fun hr => Bool.noConfusion hr, fun _ => hbase⟩
  simp only [makeRoom, hc, Option.bind_eq_bind, Option.bind_some, hkind]
  by_cases hlt : c.writable < want
  · cases hk : b.kind with
    | fixed => exact ⟨c, false, if_pos hlt, hk ▸ hthrows⟩
    | flex =>
      obtain hnone | ⟨g, hg, hgInv, hgBase⟩ :=
        resizeTo_cases hcInv (hkind.trans hk) granted hwant hlt
      · exact ⟨c, false, by rw [if_pos hlt, hnone]; rfl, hk ▸ hthrows⟩
      · refine ⟨g, true, by rw [if_pos hlt, hg]; rfl, hgInv, fun _ => ?_,
          fun hr => Bool.noConfusion hr⟩
        simp only [BufferKind.makeRoom, FlexBuffer.makeRoom, ← hbase, if_pos (hroom.mp hlt), hgBase]
        rfl
  · have hlt' := mt hroom.mpr hlt
    refine ⟨c, true, if_neg hlt, hcInv, fun _ => ?_, fun hr => Bool.noConfusion hr⟩
    cases b.kind with
    | fixed => simp only [BufferKind.makeRoom, ← hbase, hlt', not_false_eq_true, decide_true]
    | flex => simp only [BufferKind.makeRoom, FlexBuffer.makeRoom, ← hbase, if_neg hlt']

/-- What `make_room` leaves when it returns: the room that was asked for, behind the readable
bytes, which start at zero. -/
lemma makeRoom_returns (h : b.Inv) {granted : Bool} {want : BitVec 64} {c : IndexedBuffer}
    (hwant : want.toNat < 2 ^ 62) (hc : b.makeRoom granted want = some (c, true)) :
    c.Inv ∧ want ≤ c.writable ∧ c.indexRead = 0 ∧ c.readable = b.readable := by
  obtain ⟨c', r, hc', hInv, hsame, -⟩ := makeRoom_cases h granted hwant
  obtain ⟨rfl, rfl⟩ : c' = c ∧ r = true := by
    rw [hc] at hc'
    cases hc'
    exact ⟨rfl, rfl⟩
  obtain ⟨hread, hwrite, hroom⟩ : c'.toBase.indexRead = 0 ∧
      c'.toBase.indexWrite = b.toBase.readable ∧ want.toNat ≤ c'.toBase.writable := by
    have hbase := hsame rfl
    cases hk : b.kind with
    | fixed =>
      simp only [hk, BufferKind.makeRoom, Prod.mk.injEq, eq_comm (a := true),
        decide_eq_true_eq] at hbase
      obtain ⟨hrd, hwr, -⟩ := FlexBuffer.compact_spec h.inRange
      rw [hbase.1]
      exact ⟨hrd, hwr, Nat.le_of_not_lt hbase.2⟩
    | flex =>
      simp only [hk, BufferKind.makeRoom, Prod.mk.injEq, and_true] at hbase
      rw [hbase]
      exact ⟨makeRoom_indexRead h.inRange _, makeRoom_indexWrite h.inRange _,
        le_writable_makeRoom _ _⟩
  refine ⟨hInv, ?_, BitVec.eq_of_toNat_eq hread, ?_⟩
  · rwa [BitVec.le_def, toNat_writable hInv]
  · apply BitVec.eq_of_toNat_eq
    rw [toNat_readable hInv, toNat_readable h, BufferBase.readable, hread, hwrite, Nat.sub_zero]

/-- `make_room` returns if there is the room, or a vector gets it. -/
lemma makeRoom_returns_iff (h : b.Inv) (granted : Bool) {want : BitVec 64}
    (hwant : want.toNat < 2 ^ 62) :
    (∃ c, b.makeRoom granted want = some (c, true)) ↔ b.HasRoom granted want.toNat := by
  obtain ⟨c, hc, hkind, hsame, hbase⟩ := compact_spec h
  have hcInv : c.Inv := h.of_inRange hkind (congrArg List.length hsame)
    (hbase ▸ FixedBuffer.compact_inRange h.inRange)
  have hwrite : c.indexWrite.toNat = b.readable.toNat := by
    rw [toNat_readable h, ← (FlexBuffer.compact_spec h.inRange).2.1, ← hbase]
    rfl
  have hle : c.indexWrite.toNat ≤ c.container.length := hcInv.inRange.2
  have hroom : c.writable < want ↔ b.container.length < b.readable.toNat + want.toNat := by
    rw [BitVec.lt_def, toNat_writable hcInv, ← hsame, ← hwrite]
    simp only [BufferBase.writable, BufferBase.size, toBase]
    omega
  simp only [makeRoom, hc, Option.bind_eq_bind, Option.bind_some, hkind, HasRoom]
  by_cases hlt : c.writable < want
  · rw [if_pos hlt]
    have hmore := hroom.mp hlt
    cases hk : b.kind with
    | fixed =>
      constructor
      · rintro ⟨d, hd⟩
        cases hd
      · rintro (hfits | ⟨hflex, -⟩)
        · omega
        · cases hflex
    | flex =>
      have hsize : c.container.length ≤ maxSize := hcInv.size_le (hkind.trans hk)
      have hsum : (c.indexWrite + want).toNat = b.readable.toNat + want.toNat := by
        rw [BitVec.toNat_add_of_lt (by rw [maxSize] at hsize; omega), hwrite]
      simp only [resizeTo, hsum, hsame]
      by_cases hrefused : b.container.length < b.readable.toNat + want.toNat ∧
          (maxSize < b.readable.toNat + want.toNat ∨ granted = false)
      · rw [if_pos hrefused]
        constructor
        · rintro ⟨d, hd⟩
          cases hd
        · rintro (hfits | ⟨-, hmax, hgranted⟩)
          · omega
          · obtain hgt | hnot := hrefused.2
            · omega
            · cases hgranted.symm.trans hnot
      · rw [if_neg hrefused]
        refine ⟨fun _ => .inr ⟨trivial, ?_, ?_⟩, fun _ => ⟨_, rfl⟩⟩
        · by_contra hgt
          exact hrefused ⟨hmore, .inl (Nat.lt_of_not_le hgt)⟩
        · by_contra hgranted
          exact hrefused ⟨hmore, .inr (Bool.eq_false_of_not_eq_true hgranted)⟩
  · rw [if_neg hlt]
    exact ⟨fun _ => .inl (Nat.le_of_not_lt (mt hroom.mpr hlt)), fun _ => ⟨_, rfl⟩⟩

/-- Bytes that fit are stored inside the container and counted. -/
lemma append_spec (h : b.Inv) {src : List UInt8} (hlt : src.length < 2 ^ 64)
    (hfit : BitVec.ofNat 64 src.length ≤ b.writable) :
    ∃ c, b.storeAtBack src = some c ∧ (c.hasWritten (BitVec.ofNat 64 src.length)).Inv := by
  obtain ⟨c, hc, hInv, hsame⟩ := storeAtBack_spec h hlt hfit
  exact ⟨c, hc, hInv.hasWritten (hsame ▸ hfit)⟩

lemma pushBack_spec (h : b.Inv) (granted : Bool) {src : List UInt8} (hlt : src.length < 2 ^ 62) :
    ∃ c r, b.pushBack granted src = some (c, r) ∧ c.Inv := by
  have hword : (BitVec.ofNat 64 src.length).toNat < 2 ^ 62 := by
    rwa [BitVec.toNat_ofNat, Nat.mod_eq_of_lt (by omega)]
  obtain ⟨c, r, hc, hInv, -⟩ := makeRoom_cases h granted hword
  simp only [pushBack, hc, Option.bind_eq_bind, Option.bind_some]
  cases r with
  | false => exact ⟨c, false, rfl, hInv⟩
  | true =>
    obtain ⟨-, hfit, -⟩ := makeRoom_returns h hword hc
    obtain ⟨d, hd, hdInv⟩ := append_spec hInv (by omega) hfit
    exact ⟨_, true, by simp only [hd]; rfl, hdInv⟩

/-- An append returns if `make_room` does. -/
lemma pushBack_returns_iff (h : b.Inv) (granted : Bool) {src : List UInt8}
    (hlt : src.length < 2 ^ 62) :
    (∃ c, b.pushBack granted src = some (c, true)) ↔ b.HasRoom granted src.length := by
  have hlen : (BitVec.ofNat 64 src.length).toNat = src.length := by
    rw [BitVec.toNat_ofNat, Nat.mod_eq_of_lt (by omega)]
  have hword : (BitVec.ofNat 64 src.length).toNat < 2 ^ 62 := hlen.trans_lt hlt
  have hreturns := makeRoom_returns_iff h granted hword
  rw [hlen] at hreturns
  rw [← hreturns]
  obtain ⟨c, r, hc, hInv, -⟩ := makeRoom_cases h granted hword
  simp only [pushBack, hc, Option.bind_eq_bind, Option.bind_some]
  cases r with
  | false =>
    constructor
    · rintro ⟨d, hd⟩
      cases hd
    · rintro ⟨d, hd⟩
      cases hd
  | true =>
    obtain ⟨-, hfit, -⟩ := makeRoom_returns h hword hc
    obtain ⟨d, hd, -⟩ := append_spec hInv (by omega) hfit
    exact ⟨fun _ => ⟨c, rfl⟩, fun _ => ⟨_, by simp only [hd]; rfl⟩⟩

lemma emplaceBack_spec (h : b.Inv) (hroom : 1 ≤ b.writable) (ch : UInt8) :
    ∃ c, b.emplaceBack ch = some c ∧ c.Inv := by
  have hlen : [ch].length < 2 ^ 64 := Nat.one_lt_two_pow (by decide)
  obtain ⟨c, hc, hInv⟩ := append_spec h hlen hroom
  exact ⟨_, by rw [emplaceBack, hc]; rfl, hInv⟩

lemma pushBackChar_spec (h : b.Inv) (granted : Bool) (ch : UInt8) :
    ∃ c r, b.pushBackChar granted ch = some (c, r) ∧ c.Inv := by
  have hone : (1 : BitVec 64).toNat < 2 ^ 62 := by decide
  obtain ⟨c, r, hc, hInv, -⟩ := makeRoom_cases h granted hone
  simp only [pushBackChar, hc, Option.bind_eq_bind, Option.bind_some]
  cases r with
  | false => exact ⟨c, false, rfl, hInv⟩
  | true =>
    obtain ⟨-, hroom, -⟩ := makeRoom_returns h hone hc
    obtain ⟨d, hd, hdInv⟩ := emplaceBack_spec hInv hroom ch
    exact ⟨d, true, by simp only [hd]; rfl, hdInv⟩

lemma popString_spec (h : b.Inv) (len : BitVec 64) :
    ∃ c s, b.popString len = some (c, s) ∧ c.Inv := by
  have hle : (if len > b.readable then b.readable else len) ≤ b.readable := by
    split
    · exact BitVec.le_refl _
    · next hgt => exact BitVec.not_lt.mp hgt
  exact ⟨_, _, by rw [popString, front_eq h hle]; rfl, h.hasRead hle⟩

lemma popInt_spec (host : ByteOrder) (h : b.Inv) {t : IntType}
    (ht : t.bytes ≤ b.readable.toNat) : ∃ c v, b.popInt host t = some (c, v) ∧ c.Inv := by
  have hle : BitVec.ofNat 64 t.bytes ≤ b.readable := by
    have hlt : t.bytes < 2 ^ 64 := Nat.lt_of_le_of_lt ht b.readable.isLt
    rwa [BitVec.le_def, BitVec.toNat_ofNat, Nat.mod_eq_of_lt hlt]
  exact ⟨_, _, by rw [popInt, front_eq h hle]; rfl, h.hasRead hle⟩

/-- A permitted operation stays inside the container and keeps the invariant. -/
lemma apply_spec (host : ByteOrder) (h : b.Inv) {op : Op} (hop : b.Permitted op) :
    ∃ c, b.apply host op = some c ∧ c.Inv := by
  cases op with
  | makeRoom granted want =>
    obtain ⟨c, r, hc, hInv, -⟩ := makeRoom_cases h granted hop
    exact ⟨c, by rw [apply, hc]; rfl, hInv⟩
  | pushBackChar granted ch =>
    obtain ⟨c, r, hc, hInv⟩ := pushBackChar_spec h granted ch
    exact ⟨c, by rw [apply, hc]; rfl, hInv⟩
  | pushBack granted src =>
    obtain ⟨c, r, hc, hInv⟩ := pushBack_spec h granted hop
    exact ⟨c, by rw [apply, hc]; rfl, hInv⟩
  | pushBackString granted str =>
    obtain ⟨c, r, hc, hInv⟩ := pushBack_spec h granted hop
    exact ⟨c, by rw [apply, pushBackString, hc]; rfl, hInv⟩
  | emplaceBack ch => exact emplaceBack_spec h hop ch
  | popString len =>
    obtain ⟨c, s, hc, hInv⟩ := popString_spec h len
    exact ⟨c, by rw [apply, hc]; rfl, hInv⟩
  | popInt t =>
    obtain ⟨c, v, hc, hInv⟩ := popInt_spec host h hop
    exact ⟨c, by rw [apply, hc]; rfl, hInv⟩
  | hasRead len => exact ⟨_, rfl, h.hasRead hop⟩
  | hasWritten len => exact ⟨_, rfl, h.hasWritten hop⟩
  | clear => exact ⟨_, rfl, h.clear⟩

lemma Fresh.inv (h : b.Fresh) : b.Inv := by
  cases h with
  | flex initSize hlt =>
    refine ⟨⟨Nat.le_refl _, Nat.zero_le _⟩, ?_, fun _ => ?_⟩
    all_goals simp only [List.length_replicate, maxSize]; omega
  | fixed memory hlt => exact ⟨⟨Nat.le_refl _, Nat.zero_le _⟩, hlt, fun hk => nomatch hk⟩

lemma step_spec (host : ByteOrder) (h : b.Inv) {op : Op} (hop : b.Permitted op) :
    ∃ c, (machine host).step b op = some c ∧ c.Inv := by
  obtain ⟨c, hc, hInv⟩ := apply_spec host h hop
  exact ⟨c, (if_pos hop).trans hc, hInv⟩

lemma step_inv (host : ByteOrder) (h : b.Inv) {op : Op} {c : IndexedBuffer}
    (hstep : (machine host).step b op = some c) : c.Inv := by
  by_cases hop : b.Permitted op
  · obtain ⟨c', hc', hInv⟩ := step_spec host h hop
    rw [hc', Option.some_inj] at hstep
    exact hstep ▸ hInv
  · rw [show (machine host).step b op = none from if_neg hop] at hstep
    cases hstep

/-- Consuming all that is readable resets the indices. -/
lemma hasRead_eq_clear {len : BitVec 64} (h : (b.hasRead len).readable = 0) :
    b.hasRead len = b.clear := by
  unfold IndexedBuffer.hasRead at h ⊢
  by_cases heq : len = b.readable
  · rw [if_pos heq]
  · rw [if_neg heq] at h
    simp only [readable] at h heq
    exact absurd (by bv_omega) heq

/-- **The indices of a buffer stay in range.**  In every state a fresh buffer reaches the indices
are in order and inside the container, so that `readable()` and `writable()` are the differences
they stand for; every permitted operation stays inside the container; `make_room` and `push_back`
return if and only if there is the room or a vector gets it; room that was made is there, behind the
same number of readable bytes, which start at zero; and a buffer that `has_read` empties has both
indices at zero. -/
theorem indices_in_range (host : ByteOrder) {b₀ b : IndexedBuffer} (h₀ : b₀.Fresh)
    (hb : (machine host).Reachable b₀ b) :
    (b.indexRead ≤ b.indexWrite ∧ b.indexWrite.toNat ≤ b.container.length ∧
      b.readable.toNat = b.indexWrite.toNat - b.indexRead.toNat ∧
      b.writable.toNat = b.container.length - b.indexWrite.toNat) ∧
    (∀ op, b.Permitted op → ∃ c, b.apply host op = some c) ∧
    (∀ granted want, want.toNat < 2 ^ 62 →
      ((∃ c, b.makeRoom granted want = some (c, true)) ↔ b.HasRoom granted want.toNat) ∧
      ∀ c, b.makeRoom granted want = some (c, true) →
        want ≤ c.writable ∧ c.indexRead = 0 ∧ c.readable = b.readable) ∧
    (∀ granted src, src.length < 2 ^ 62 →
      ((∃ c, b.pushBack granted src = some (c, true)) ↔ b.HasRoom granted src.length)) ∧
    (∀ len, len ≤ b.readable → (b.hasRead len).readable = 0 →
      (b.hasRead len).indexRead = 0 ∧ (b.hasRead len).indexWrite = 0) := by
  have h : b.Inv := Machine.Reachable.invariant (machine host) hb h₀.inv
    (fun b op c hb hstep => step_inv host hb hstep)
  refine ⟨⟨BitVec.le_def.mpr h.inRange.1, h.inRange.2, toNat_readable h, toNat_writable h⟩,
    ?_, ?_, ?_, ?_⟩
  · intro op hop
    obtain ⟨c, hc, -⟩ := apply_spec host h hop
    exact ⟨c, hc⟩
  · intro granted want hwant
    exact ⟨makeRoom_returns_iff h granted hwant, fun c hc => (makeRoom_returns h hwant hc).2⟩
  · exact fun granted src hlt => pushBack_returns_iff h granted hlt
  · intro len _ hzero
    rw [hasRead_eq_clear hzero]
    exact ⟨rfl, rfl⟩

/-- A `fixed_buffer` of two bytes: one is appended, and appending two more throws. -/
def afterThrow : List Op := [.pushBackChar true 1, .pushBack true [2, 3]]

/-- The buffer is as it should be: there is room for one more byte, not for two, and reading the one
there is empties it. -/
theorem indices_in_range_afterThrow :
    ∃ b, (machine .little).run { kind := .fixed, container := [0, 0] } afterThrow = some b ∧
      b.indexRead ≤ b.indexWrite ∧ b.indexWrite.toNat ≤ b.container.length ∧
      (∃ c, b.makeRoom true 1 = some (c, true) ∧ 1 ≤ c.writable ∧ c.readable = 1) ∧
      (¬ ∃ c, b.makeRoom true 2 = some (c, true)) ∧
      (b.hasRead 1).indexRead = 0 ∧ (b.hasRead 1).indexWrite = 0 := by
  refine ⟨_, rfl, ?_⟩
  obtain ⟨hindices, -, hroom, -, hempty⟩ :=
    indices_in_range .little (.fixed [0, 0] (by decide)) ⟨afterThrow, rfl⟩
  obtain ⟨c, hc⟩ := (hroom true 1 (by decide)).1.mpr (.inl (by decide))
  obtain ⟨hle, -, hread⟩ := (hroom true 1 (by decide)).2 c hc
  refine ⟨hindices.1, hindices.2.1, ⟨c, hc, hle, hread⟩, fun hreturns => ?_,
    hempty 1 (by decide) (by decide)⟩
  obtain hfits | ⟨hflex, -⟩ := (hroom true 2 (by decide)).1.mp hreturns
  · exact absurd hfits (by decide)
  · cases hflex

end IndexedBuffer

end Coring
