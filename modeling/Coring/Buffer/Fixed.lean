import Coring.Buffer.Readers

/-!
# Appending to a `fixed_buffer`

A `fixed_buffer` stands on memory it was given, so its `make_room` throws where that of a
`flex_buffer` grows.  It rebases the indices before it knows whether there is enough room, and a
call that throws leaves the rebased buffer behind.

Whether a call throws is decided as it should be: exactly when the bytes do not fit into the
storage beside the readable ones (`FixedBuffer.pushBack_throws_iff`).  What is readable afterwards
is not: the bytes are not moved to the front when the indices are, so on both paths the buffer
shows the front of its container in their place.  `pushBack_allOrNothing_iff` is the exact
condition, the one that `Coring.Buffer.Stream` finds for a `flex_buffer`.
-/

namespace Coring

namespace FixedBuffer

open BufferBase

/-- `make_room`: the buffer it leaves, and whether it returns. -/
def makeRoom (b : BufferBase) (want : ℕ) : BufferBase × Bool := BufferKind.fixed.makeRoom b want

/-- `push_back(const void *src, size_t len)`, with `src` the `len` bytes at that address: the
buffer it leaves, and whether it returns. -/
def pushBack (b : BufferBase) (src : List UInt8) : BufferBase × Bool :=
  match makeRoom b src.length with
  | (b, true) => ((b.storeAtBack src).hasWritten src.length, true)
  | (b, false) => (b, false)

/-- `push_back_string`. -/
def pushBackString (b : BufferBase) (str : List UInt8) : BufferBase × Bool := pushBack b str

/-- All or nothing: a call throws exactly when the bytes do not fit beside the readable ones; one
that throws leaves the readable bytes alone, one that returns appends to them. -/
def AllOrNothing (b : BufferBase) (src : List UInt8) : Prop :=
  ((pushBack b src).2 = false ↔ b.size - b.readable < src.length) ∧
  ((pushBack b src).2 = false → (pushBack b src).1.readableView = b.readableView) ∧
  ((pushBack b src).2 = true → (pushBack b src).1.readableView = b.readableView ++ src)

variable {b : BufferBase}

lemma compact_inRange (h : b.InRange) : (FlexBuffer.compact b).InRange := by
  obtain ⟨hr, hw, hc⟩ := FlexBuffer.compact_spec h
  have hb := h.read_add_readable_le
  refine ⟨by rw [hr]; exact Nat.zero_le _, ?_⟩
  rw [hw, size, hc]
  omega

/-- Rebasing shows the front of the container. -/
lemma readableView_compact (h : b.InRange) :
    (FlexBuffer.compact b).readableView = slice b.container 0 b.readable := by
  obtain ⟨hr, hw, hc⟩ := FlexBuffer.compact_spec h
  rw [readableView, readable, hr, hw, hc, Nat.sub_zero]

lemma writable_compact (h : b.InRange) :
    (FlexBuffer.compact b).writable = b.size - b.readable := by
  obtain ⟨-, hw, hc⟩ := FlexBuffer.compact_spec h
  rw [writable, size, hw, hc, size]

/-- A call throws exactly when the bytes do not fit beside the readable ones. -/
lemma pushBack_throws_iff (h : b.InRange) (src : List UInt8) :
    (pushBack b src).2 = false ↔ b.size - b.readable < src.length := by
  rw [← writable_compact h]
  simp only [pushBack, makeRoom, BufferKind.makeRoom]
  by_cases hlt : (FlexBuffer.compact b).writable < src.length
  · simp only [hlt, not_true_eq_false, decide_false]
  · simp only [hlt, not_false_eq_true, decide_true, Bool.true_eq_false]

/-- What a call leaves readable: the front of the container in place of the readable bytes, and
behind it the bytes appended if the call returned. -/
lemma readableView_pushBack (h : b.InRange) (src : List UInt8) :
    (pushBack b src).1.readableView
      = slice b.container 0 b.readable ++ if (pushBack b src).2 then src else [] := by
  simp only [pushBack, makeRoom, BufferKind.makeRoom]
  by_cases hlt : (FlexBuffer.compact b).writable < src.length
  · simp only [hlt, not_true_eq_false, decide_false, Bool.false_eq_true, if_false,
      List.append_nil, readableView_compact h]
  · simp only [hlt, not_false_eq_true, decide_true, if_true]
    rw [readableView_store (compact_inRange h), readableView_compact h]

/-- **When `push_back` of a `fixed_buffer` is all or nothing.**  In every state whose indices are
in range a call throws exactly when the bytes do not fit beside the readable ones; and it leaves
the readable bytes, or appends to them, if and only if these are the bytes at the front of the
container. -/
theorem pushBack_allOrNothing_iff (h : b.InRange) (src : List UInt8) :
    ((pushBack b src).2 = false ↔ b.size - b.readable < src.length) ∧
    (AllOrNothing b src ↔ b.Frontal) := by
  have hthrows := pushBack_throws_iff h src
  refine ⟨hthrows, ?_⟩
  rw [AllOrNothing, readableView_pushBack h, Frontal, and_iff_right hthrows]
  cases (pushBack b src).2 with
  | false => simp
  | true => simp

/-- The read index of a buffer that was only appended to is zero, which is one way to meet the
condition. -/
lemma frontal_of_indexRead_eq_zero (h : b.indexRead = 0) : b.Frontal := by
  rw [Frontal, readableView, h]

/-- A full buffer that was never read from: the call throws and changes nothing. -/
theorem pushBack_allOrNothing_iff_full :
    AllOrNothing ⟨[1, 2], 0, 2⟩ [3] ∧ (pushBack ⟨[1, 2], 0, 2⟩ [3]).2 = false :=
  ⟨(pushBack_allOrNothing_iff ⟨by decide, by decide⟩ [3]).2.mpr
      (frontal_of_indexRead_eq_zero rfl),
    (pushBack_allOrNothing_iff ⟨by decide, by decide⟩ [3]).1.mpr (by decide)⟩

/-- Three bytes of storage, the first consumed and the second readable: a call that returns has
put the consumed byte in front of what it appends. -/
theorem pushBack_shows_consumed_byte :
    (⟨[1, 2, 3], 1, 2⟩ : BufferBase).InRange ∧ ¬ AllOrNothing ⟨[1, 2, 3], 1, 2⟩ [9] :=
  ⟨⟨by decide, by decide⟩, fun h => absurd (h.2.2 (by decide)) (by decide)⟩

end FixedBuffer

end Coring
