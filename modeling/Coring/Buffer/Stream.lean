import Coring.Framework.Machine
import Coring.Buffer.Basic

/-!
# A `flex_buffer` as a byte stream

A `flex_buffer` is meant to be a FIFO stream of bytes: whatever has been appended and not yet
consumed is what can be read.  This file runs the buffer as a machine whose actions are the
appends, the reads and the receives of a program, keeps beside it the two quantities the
stream is described by (all bytes ever appended, the number consumed), and determines exactly
which runs behave as the stream.

`makeRoom` rebases the indices to zero, but the `::memmove` that should bring the readable
bytes to the front of the container copies them onto themselves.  The rebased buffer therefore
shows the first `readable()` bytes of the container (`readableView_makeRoom`), which are the
readable bytes only if the read index was zero or the two happen to coincide.  This condition
is `Frontal`, and `fifo_iff_frontal` shows that along a run the buffer is the stream if and
only if it held at every append and every receive.
-/

namespace Coring

namespace BufferBase

/-- The indices are in order and inside the container. -/
def InRange (b : BufferBase) : Prop := b.indexRead ≤ b.indexWrite ∧ b.indexWrite ≤ b.size

/-- The readable bytes are those at the front of the container. -/
def Frontal (b : BufferBase) : Prop := slice b.container 0 b.readable = b.readableView

instance (b : BufferBase) : Decidable b.Frontal := inferInstanceAs (Decidable (_ = _))

lemma InRange.read_add_readable_le {b : BufferBase} (h : b.InRange) :
    b.indexRead + b.readable ≤ b.container.length := by
  obtain ⟨hrw, hws⟩ := h
  rw [size] at hws
  rw [readable]
  omega

lemma length_readableView {b : BufferBase} (h : b.InRange) :
    b.readableView.length = b.readable :=
  length_slice h.read_add_readable_le

/-! ## Reading -/

lemma InRange.hasRead {b : BufferBase} (h : b.InRange) {len : ℕ} (hlen : len ≤ b.readable) :
    (b.hasRead len).InRange := by
  obtain ⟨hrw, hws⟩ := h
  rw [readable] at hlen
  unfold BufferBase.hasRead
  split
  · exact ⟨Nat.le_refl 0, Nat.zero_le _⟩
  · exact ⟨by simp only; omega, hws⟩

/-- Consuming a prefix drops it from the readable bytes, also when the indices are reset. -/
lemma readableView_hasRead {b : BufferBase} {len : ℕ} :
    (b.hasRead len).readableView = b.readableView.drop len := by
  unfold BufferBase.hasRead
  split
  · next heq => simp [readableView, readable, clear, heq, slice]
  · next hne =>
    rw [readableView, readableView, drop_slice]
    congr 1
    simp only [readable]
    omega

lemma popString_snd (b : BufferBase) (len : ℕ) :
    (b.popString len).2 = b.hasRead (min len b.readable) := by
  unfold popString
  split
  · next h => rw [Nat.min_eq_right (Nat.le_of_lt h)]
  · next h => rw [Nat.min_eq_left (Nat.le_of_not_lt h)]

lemma popString_fst (b : BufferBase) (len : ℕ) :
    (b.popString len).1 = b.readableView.take len := by
  rw [readableView, take_slice]
  unfold popString
  split
  · next h => rw [Nat.min_eq_right (Nat.le_of_lt h)]
  · next h => rw [Nat.min_eq_left (Nat.le_of_not_lt h)]

/-! ## Storing at the back -/

/-- Bytes that fit behind the write index and are then counted as written extend the readable
bytes. -/
lemma readableView_store {b : BufferBase} (h : b.InRange) (src : List UInt8) :
    ((b.storeAtBack src).hasWritten src.length).readableView = b.readableView ++ src := by
  have hw : b.indexWrite = b.indexRead + b.readable := by
    rw [readable, Nat.add_sub_cancel' h.1]
  have hread : ((b.storeAtBack src).hasWritten src.length).readable
      = b.readable + src.length := by
    simp only [readable, storeAtBack, hasWritten]
    have := h.1
    omega
  rw [readableView, hread]
  simp only [storeAtBack, hasWritten, hw]
  rw [slice_overwrite_append h.read_add_readable_le, readableView]

lemma InRange.store {b : BufferBase} (h : b.InRange) {src : List UInt8}
    (hfit : src.length ≤ b.writable) : ((b.storeAtBack src).hasWritten src.length).InRange := by
  obtain ⟨hrw, hws⟩ := h
  rw [writable] at hfit
  refine ⟨by simp only [storeAtBack, hasWritten]; omega, ?_⟩
  simp only [storeAtBack, hasWritten, size]
  rw [length_overwrite]
  all_goals rw [size] at *; omega

end BufferBase

/-! ## Making room -/

namespace FlexBuffer

open BufferBase

lemma fresh_inRange (initSize : ℕ) : (fresh initSize).InRange :=
  ⟨Nat.le_refl 0, Nat.zero_le _⟩

/-- Rebasing keeps the number of readable bytes and shows the front of the container. -/
lemma compact_spec {b : BufferBase} (h : b.InRange) :
    (compact b).indexRead = 0 ∧ (compact b).indexWrite = b.readable ∧
      (compact b).container = b.container := by
  unfold compact
  split
  · exact ⟨rfl, rfl, overwrite_slice h.read_add_readable_le⟩
  · next hz =>
    have hz : b.indexRead = 0 := by omega
    exact ⟨hz, by rw [readable, hz, Nat.sub_zero], rfl⟩

lemma length_resize (v : List UInt8) (n : ℕ) : (resize v n).length = n := by
  simp only [resize, List.length_append, List.length_take, List.length_replicate]
  omega

lemma makeRoom_indexRead {b : BufferBase} (h : b.InRange) (want : ℕ) :
    (makeRoom b want).indexRead = 0 := by
  simp only [makeRoom]
  split <;> exact (compact_spec h).1

lemma makeRoom_indexWrite {b : BufferBase} (h : b.InRange) (want : ℕ) :
    (makeRoom b want).indexWrite = b.readable := by
  simp only [makeRoom]
  split <;> exact (compact_spec h).2.1

/-- The container is kept as a prefix: `resize` is only reached to grow it. -/
lemma makeRoom_container {b : BufferBase} (h : b.InRange) (want : ℕ) :
    ∃ extra, (makeRoom b want).container = b.container ++ extra := by
  obtain ⟨-, -, hc⟩ := compact_spec h
  simp only [makeRoom]
  split
  · next hlt =>
    rw [writable, size] at hlt
    have htake : (compact b).container.take ((compact b).indexWrite + want) = b.container := by
      rw [List.take_of_length_le (by omega), hc]
    exact ⟨_, congrArg (· ++ _) htake⟩
  · exact ⟨[], by rw [hc, List.append_nil]⟩

lemma makeRoom_inRange {b : BufferBase} (h : b.InRange) (want : ℕ) :
    (makeRoom b want).InRange := by
  obtain ⟨extra, hc⟩ := makeRoom_container h want
  have hb := h.read_add_readable_le
  refine ⟨by rw [makeRoom_indexRead h]; exact Nat.zero_le _, ?_⟩
  rw [makeRoom_indexWrite h, size, hc, List.length_append]
  omega

lemma le_writable_makeRoom (b : BufferBase) (want : ℕ) :
    want ≤ (makeRoom b want).writable := by
  simp only [makeRoom]
  split
  · simp only [writable, size, length_resize]
    omega
  · next h => exact Nat.le_of_not_lt h

/-- What `make_room` leaves readable: as many bytes as before, taken from the front of the
container. -/
lemma readableView_makeRoom {b : BufferBase} (h : b.InRange) (want : ℕ) :
    (makeRoom b want).readableView = slice b.container 0 b.readable := by
  obtain ⟨extra, hc⟩ := makeRoom_container h want
  have hb := h.read_add_readable_le
  rw [readableView, readable, makeRoom_indexRead h, makeRoom_indexWrite h, Nat.sub_zero, hc,
    slice_append (by omega)]

lemma readableView_makeRoom_eq_iff {b : BufferBase} (h : b.InRange) (want : ℕ) :
    (makeRoom b want).readableView = b.readableView ↔ b.Frontal := by
  rw [readableView_makeRoom h, Frontal]

/-- The shape common to the three appends and to `read_some`: make room, store at the back,
count as written. -/
def append (b : BufferBase) (want : ℕ) (src : List UInt8) : BufferBase :=
  ((makeRoom b want).storeAtBack src).hasWritten src.length

lemma append_inRange {b : BufferBase} (h : b.InRange) {want : ℕ} {src : List UInt8}
    (hfit : src.length ≤ (makeRoom b want).writable) : (append b want src).InRange :=
  (makeRoom_inRange h want).store hfit

lemma readableView_append {b : BufferBase} (h : b.InRange) (want : ℕ) (src : List UInt8) :
    (append b want src).readableView = slice b.container 0 b.readable ++ src := by
  rw [append, readableView_store (makeRoom_inRange h want), readableView_makeRoom h]

lemma readSome_chunk {b : BufferBase} {chunk : List UInt8} (hpos : chunk ≠ []) :
    (readSome b (.chunk chunk)).1 = append b readBufferAtLeastWritable chunk := by
  have hlen : 0 < chunk.length := List.length_pos_iff.mpr hpos
  unfold readSome RecvResult.chunk append
  simp only
  rw [if_neg (by omega), if_neg (by omega)]
  rfl

end FlexBuffer

/-! ## Runs -/

namespace Stream

open BufferBase FlexBuffer

/-- One step of a program on its buffer. -/
inductive Op
  | pushBackChar (ch : UInt8)
  | pushBack (src : List UInt8)
  | pushBackString (str : List UInt8)
  | popString (len : ℕ)
  /-- `has_read(len)`; the caller must have `len ≤ readable()`. -/
  | hasRead (len : ℕ)
  /-- `read_some` whose receive stores this chunk; the kernel stores at least one byte and at
  most `writable()` of them. -/
  | readSome (chunk : List UInt8)
  deriving Repr, DecidableEq

/-- A buffer together with what the stream is described by. -/
structure State where
  buffer : BufferBase
  /-- All bytes ever appended, in order. -/
  appended : List UInt8
  /-- How many of them have been consumed. -/
  consumed : ℕ
  deriving Repr, DecidableEq

def start (initSize : ℕ) : State := ⟨fresh initSize, [], 0⟩

def step (s : State) : Op → Option State
  | .pushBackChar ch =>
      some { s with
        buffer := FlexBuffer.pushBackChar s.buffer ch, appended := s.appended ++ [ch] }
  | .pushBack src =>
      some { s with buffer := FlexBuffer.pushBack s.buffer src, appended := s.appended ++ src }
  | .pushBackString str =>
      some { s with
        buffer := FlexBuffer.pushBackString s.buffer str, appended := s.appended ++ str }
  | .popString len =>
      some { s with
        buffer := (s.buffer.popString len).2
        consumed := s.consumed + (s.buffer.popString len).1.length }
  | .hasRead len =>
      if len ≤ s.buffer.readable then
        some { s with buffer := s.buffer.hasRead len, consumed := s.consumed + len }
      else none
  | .readSome chunk =>
      if 1 ≤ chunk.length ∧
          chunk.length ≤ (makeRoom s.buffer readBufferAtLeastWritable).writable then
        some { s with
          buffer := (Coring.readSome s.buffer (.chunk chunk)).1
          appended := s.appended ++ chunk }
      else none

def machine : Machine State Op := ⟨step⟩

/-- The stream property: the readable bytes are all bytes ever appended without the consumed
ones. -/
def Fifo (s : State) : Prop := s.buffer.readableView = s.appended.drop s.consumed

/-- The condition on a step: an append or a receive finds the readable bytes at the front of
the container. -/
def Compacted (s : State) : Op → Prop
  | .popString _ | .hasRead _ => True
  | .pushBackChar _ | .pushBack _ | .pushBackString _ | .readSome _ => s.buffer.Frontal

instance decidableCompacted (s : State) : ∀ op, Decidable (Compacted s op)
  | .popString _ | .hasRead _ => isTrue trivial
  | .pushBackChar _ | .pushBack _ | .pushBackString _ | .readSome _ =>
      inferInstanceAs (Decidable s.buffer.Frontal)

/-- A step either consumes a prefix or appends bytes behind a call of `make_room`. -/
lemma step_cases {s s' : State} {op : Op} (hs : s.buffer.InRange) (h : step s op = some s') :
    (∃ len, len ≤ s.buffer.readable ∧ (Compacted s op ↔ True) ∧
      s' = { s with buffer := s.buffer.hasRead len, consumed := s.consumed + len }) ∨
    (∃ want src, src.length ≤ (makeRoom s.buffer want).writable ∧
      (Compacted s op ↔ s.buffer.Frontal) ∧
      s' = { s with buffer := append s.buffer want src, appended := s.appended ++ src }) := by
  cases op with
  | pushBackChar ch =>
    simp only [step, Option.some_inj] at h
    exact .inr ⟨1, [ch], le_writable_makeRoom _ _, Iff.rfl, h.symm⟩
  | pushBack src =>
    simp only [step, Option.some_inj] at h
    exact .inr ⟨src.length, src, le_writable_makeRoom _ _, Iff.rfl, h.symm⟩
  | pushBackString str =>
    simp only [step, Option.some_inj] at h
    exact .inr ⟨str.length, str, le_writable_makeRoom _ _, Iff.rfl, h.symm⟩
  | popString len =>
    simp only [step, Option.some_inj] at h
    refine .inl ⟨min len s.buffer.readable, Nat.min_le_right _ _, Iff.rfl, ?_⟩
    rw [← h, popString_snd, popString_fst, List.length_take, length_readableView hs]
  | hasRead len =>
    simp only [step] at h
    split at h
    · next hle =>
      rw [Option.some_inj] at h
      exact .inl ⟨len, hle, Iff.rfl, h.symm⟩
    · cases h
  | readSome chunk =>
    simp only [step] at h
    split at h
    · next hfit =>
      rw [Option.some_inj] at h
      refine .inr ⟨_, chunk, hfit.2, Iff.rfl, ?_⟩
      rw [← h, readSome_chunk (List.length_pos_iff.mp hfit.1)]
    · cases h

/-- The indices stay in range and no more is consumed than was appended. -/
def Inv (s : State) : Prop :=
  s.buffer.InRange ∧ s.consumed + s.buffer.readable = s.appended.length

lemma inv_start (initSize : ℕ) : Inv (start initSize) :=
  ⟨fresh_inRange initSize, rfl⟩

lemma readable_hasRead (b : BufferBase) (len : ℕ) :
    (b.hasRead len).readable = b.readable - len := by
  unfold BufferBase.hasRead
  split
  · next heq => simp [readable, clear, heq]
  · simp only [readable] at *
    omega

lemma readable_append {b : BufferBase} (h : b.InRange) (want : ℕ) (src : List UInt8) :
    (append b want src).readable = b.readable + src.length := by
  simp only [append, readable, storeAtBack, hasWritten, makeRoom_indexRead h,
    makeRoom_indexWrite h, Nat.sub_zero]

lemma step_inv {s s' : State} {op : Op} (hs : Inv s) (h : step s op = some s') : Inv s' := by
  obtain ⟨hr, hc⟩ := hs
  obtain ⟨len, hle, -, rfl⟩ | ⟨want, src, hfit, -, rfl⟩ := step_cases hr h
  · refine ⟨hr.hasRead hle, ?_⟩
    simp only [readable_hasRead]
    omega
  · refine ⟨append_inRange hr hfit, ?_⟩
    simp only [readable_append hr, List.length_append]
    omega

/-- A step keeps the stream property exactly when it meets the condition. -/
lemma step_fifo_iff {s s' : State} {op : Op} (hs : Inv s) (hf : Fifo s)
    (h : step s op = some s') : Fifo s' ↔ Compacted s op := by
  obtain ⟨hr, hc⟩ := hs
  obtain ⟨len, hle, hcond, rfl⟩ | ⟨want, src, hfit, hcond, rfl⟩ := step_cases hr h
  · rw [hcond, iff_true, Fifo, readableView_hasRead, hf, List.drop_drop]
  · have hle : s.consumed ≤ s.appended.length := by omega
    rw [hcond, Fifo, readableView_append hr, List.drop_append_of_le_length hle,
      List.append_left_inj, Frontal, hf]

/-- **When a `flex_buffer` is a FIFO byte stream.**  Along a run from a fresh buffer the
readable bytes are at every step the appended bytes without the consumed ones if and only if
every append and every receive finds the readable bytes at the front of the container; and a
call of `make_room` keeps the readable bytes if and only if it does. -/
theorem fifo_iff_frontal (initSize : ℕ) (ops : List Op) :
    (machine.Always Fifo (start initSize) ops ↔
      machine.Each Compacted (start initSize) ops) ∧
    ∀ (s : State) (want : ℕ), machine.Reachable (start initSize) s →
      ((makeRoom s.buffer want).readableView = s.buffer.readableView ↔ s.buffer.Frontal) := by
  constructor
  · exact machine.always_iff_each (fun s a s' => step_inv)
      (fun s a s' hs _ => step_fifo_iff hs) ops (start initSize) (inv_start initSize) rfl
      (machine.each_of_forall (fun _ _ => trivial) _ _)
  · intro s want hs
    have hinv : Inv s := Machine.Reachable.invariant machine hs (inv_start initSize)
      (fun s a s' => step_inv)
    exact readableView_makeRoom_eq_iff hinv.1 want

/-- Bytes are received, taken and read, and more of them appended; at the last append the read index
is above zero, but the byte that is readable is also at the front of the container. -/
def readAndPop : List Op :=
  [.readSome [1, 2], .popString 1, .hasRead 1, .pushBack [3, 3], .popString 1, .pushBackChar 4]

theorem fifo_iff_frontal_readAndPop :
    machine.Always Fifo (start 1) readAndPop ∧
    ∃ s, machine.run (start 1) readAndPop = some s ∧ s.buffer.readableView = [3, 4] ∧
      (makeRoom s.buffer 8).readableView = s.buffer.readableView := by
  have hrun : (machine.run (start 1) readAndPop).map
      (fun s => (s.buffer.readableView, decide s.buffer.Frontal)) = some ([3, 4], true) := by
    decide +kernel
  obtain ⟨s, hs, heq⟩ := Option.map_eq_some_iff.mp hrun
  simp only [Prod.mk.injEq, decide_eq_true_eq] at heq
  exact ⟨(fifo_iff_frontal 1 _).1.mpr (by decide +kernel), s, hs, heq.1,
    ((fifo_iff_frontal 1 []).2 s 8 ⟨readAndPop, hs⟩).mpr heq.2⟩

/-- Two bytes in, one out, one in: the second byte is lost and the first is read again. -/
theorem fifo_fails_after_partial_read :
    ¬ machine.Always Fifo (start 2) [.pushBack [1, 2], .popString 1, .pushBackChar 3] := by
  intro h
  have h₃ := ((h.2 _ rfl).2 _ rfl).2 _ rfl
  exact absurd h₃ (by unfold Machine.Always Fifo; decide)

end Stream

end Coring
