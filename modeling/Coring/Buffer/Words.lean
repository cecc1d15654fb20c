import Coring.Buffer.Stream
import Coring.Framework.Ring

/-!
# Buffers with 64-bit indices

`Coring.Buffer.Basic` counts the indices of a buffer in natural numbers, which is exact as long as
a caller of `has_read` keeps its assertion `len <= readable()`.  The socket writers do not always:
they pass on the `int` a send has returned, and a negative one becomes a length close to `2 ^ 64`.
Here the indices are the words they are in the source.

Pointers into the container wrap around as the indices do, so a buffer is given by the byte at
every distance from `container_.data()`, whether it belongs to the container or not.  `ofBase`
is a buffer of `Coring.Buffer.Basic` seen this way, and `hasRead_ofBase` says that the two agree
on every length that is readable.
-/

namespace Coring

/-- `detail::buffer_base`, and the memory it stands in. -/
structure WordBuffer where
  /-- The byte at `container_.data() + i`. -/
  byteAt : BitVec 64 → UInt8
  indexRead : BitVec 64
  indexWrite : BitVec 64

namespace WordBuffer

def readable (b : WordBuffer) : BitVec 64 := b.indexWrite - b.indexRead

/-- The bytes from `front()` on, `readable()` of them. -/
def readableView (b : WordBuffer) : List UInt8 :=
  (List.range b.readable.toNat).map fun i => b.byteAt (b.indexRead + counter 64 i)

def clear (b : WordBuffer) : WordBuffer := { b with indexRead := 0, indexWrite := 0 }

/-- `has_read`.  Its assertion is compiled out by `NDEBUG`; where it is not, and fails, the
program is aborted (`none`). -/
def hasRead (ndebug : Bool) (b : WordBuffer) (len : BitVec 64) : Option WordBuffer :=
  if ndebug = false ∧ ¬ len ≤ b.readable then none
  else if len = b.readable then some b.clear
  else some { b with indexRead := b.indexRead + len }

variable {b : WordBuffer} {len : BitVec 64}

@[simp] lemma length_readableView (b : WordBuffer) :
    b.readableView.length = b.readable.toNat := by
  rw [readableView, List.length_map, List.length_range]

lemma readableView_clear (b : WordBuffer) : b.clear.readableView = [] := by
  simp [readableView, readable, clear]

/-- A read index moved on within the readable bytes. -/
lemma readableView_advance (h : len ≤ b.readable) :
    ({ b with indexRead := b.indexRead + len } : WordBuffer).readableView
      = b.readableView.drop len.toNat := by
  have hsub : (b.indexWrite - (b.indexRead + len)).toNat = b.readable.toNat - len.toNat := by
    rw [← BitVec.toNat_sub_of_le h, readable]
    congr 1
    bv_omega
  apply List.ext_getElem
  · simp only [List.length_drop, length_readableView, readable] at hsub ⊢
    exact hsub
  · intro i h₁ h₂
    simp only [readableView, List.getElem_map, List.getElem_range, List.getElem_drop,
      counter_add, counter_toNat, BitVec.add_assoc]

/-- **What `has_read` does with a readable length**: the assertion holds, and the bytes are
dropped. -/
lemma hasRead_of_le (ndebug : Bool) (h : len ≤ b.readable) :
    ∃ b', b.hasRead ndebug len = some b' ∧ b'.readableView = b.readableView.drop len.toNat ∧
      (len = b.readable → b' = b.clear) := by
  have hassert : ¬ (ndebug = false ∧ ¬ len ≤ b.readable) := fun hc => hc.2 h
  by_cases heq : len = b.readable
  · refine ⟨b.clear, ?_, ?_, fun _ => rfl⟩
    · rw [hasRead, if_neg hassert, if_pos heq]
    · rw [readableView_clear, heq, ← length_readableView, List.drop_length]
  · refine ⟨_, ?_, readableView_advance h, fun hc => absurd hc heq⟩
    rw [hasRead, if_neg hassert, if_neg heq]

/-! ## Buffers with natural indices -/

/-- A buffer with natural indices; outside its container there are some bytes. -/
def ofBase (outside : BitVec 64 → UInt8) (b : BufferBase) : WordBuffer where
  byteAt i := (b.container[i.toNat]?).getD (outside i)
  indexRead := counter 64 b.indexRead
  indexWrite := counter 64 b.indexWrite

variable {base : BufferBase} {outside : BitVec 64 → UInt8}

lemma readable_ofBase (outside : BitVec 64 → UInt8) (h : base.InRange)
    (hsize : base.size < 2 ^ 64) :
    (ofBase outside base).readable.toNat = base.readable := by
  obtain ⟨hrw, hws⟩ := h
  exact counter_sub hrw (by omega)

lemma readableView_ofBase (h : base.InRange) (hsize : base.size < 2 ^ 64) :
    (ofBase outside base).readableView = base.readableView := by
  have hlen := BufferBase.length_readableView h
  have hin := h.read_add_readable_le
  have hword := readable_ofBase outside h hsize
  apply List.ext_getElem
  · rw [length_readableView, hword, hlen]
  · intro i h₁ h₂
    have hi : base.indexRead + i < base.container.length := by omega
    have htoNat : (counter 64 (base.indexRead + i)).toNat = base.indexRead + i := by
      rw [counter, BitVec.toNat_ofNat, Nat.mod_eq_of_lt (by rw [BufferBase.size] at hsize; omega)]
    simp only [readableView, ofBase, List.getElem_map, List.getElem_range, ← counter_add, htoNat,
      List.getElem?_eq_getElem hi, Option.getD_some, BufferBase.readableView, slice,
      List.getElem_take, List.getElem_drop]

/-- On readable lengths the two models of `has_read` are one. -/
lemma hasRead_ofBase (ndebug : Bool) (h : base.InRange) (hsize : base.size < 2 ^ 64) {len : ℕ}
    (hlen : len ≤ base.readable) :
    (ofBase outside base).hasRead ndebug (counter 64 len)
      = some (ofBase outside (base.hasRead len)) := by
  have hword := readable_ofBase outside h hsize
  have hlt : base.readable < 2 ^ 64 := by rw [← hword]; exact BitVec.isLt _
  have htoNat : (counter 64 len).toNat = len := by
    rw [counter, BitVec.toNat_ofNat, Nat.mod_eq_of_lt (by omega)]
  have hassert : ¬ (ndebug = false ∧ ¬ counter 64 len ≤ (ofBase outside base).readable) := by
    rintro ⟨-, hc⟩
    rw [BitVec.le_def, htoNat, hword] at hc
    exact hc hlen
  have hiff : counter 64 len = (ofBase outside base).readable ↔ len = base.readable := by
    rw [← BitVec.toNat_inj, htoNat, hword]
  rw [hasRead, if_neg hassert, BufferBase.hasRead]
  by_cases heq : len = base.readable
  · rw [if_pos (hiff.mpr heq), if_pos heq]
    rfl
  · rw [if_neg (mt hiff.mp heq), if_neg heq]
    simp only [ofBase, counter_add]

end WordBuffer

end Coring
