import Mathlib.Data.List.SplitLengths
import Coring.Buffer.Stream
import Coring.Net.Endian

/-!
# Integers in a `flex_buffer`

A protocol that writes integers into a buffer converts them to network byte order and appends
their memory; `pop_int` takes the bytes of an integer from the front and converts back.  Nothing in
the buffer remembers the types that were written, so a reader may cut the bytes up differently.

The buffer is one big endian stream of bytes: `popInts_appendInts` says that a list of `pop_int`
calls returns the values that the corresponding slices of the stream denote, for every way to cut
it.  The indices of the buffer are back at zero once it is empty; `Rewound` is the invariant that
gives this.

`push_back_int` calls `emplace_back` with two arguments, an overload that does not exist, so no
program can instantiate it.  `appendInt` is the call it stands for.
-/

namespace Coring

open BufferBase FlexBuffer

/-- `push_back(&n, sizeof n)` with `n = host_to_network(v)`. -/
def appendInt (host : ByteOrder) (b : BufferBase) (v : IntValue) : BufferBase :=
  pushBack b ((hostToNetwork host v).memory host)

def appendInts (host : ByteOrder) (b : BufferBase) (vs : List IntValue) : BufferBase :=
  vs.foldl (appendInt host) b

namespace BufferBase

/-- `pop_int`; its assertion fails if the buffer holds less than an integer of the type. -/
def popInt (host : ByteOrder) (b : BufferBase) (t : IntType) : Option (BufferBase × IntValue) :=
  if t.bytes ≤ b.readable then
    let ret := IntValue.ofMemory host t (slice b.container b.indexRead t.bytes)
    some (b.hasRead t.bytes, networkToHost host ret)
  else none

/-- One `pop_int` after the other. -/
def popInts (host : ByteOrder) : BufferBase → List IntType → Option (BufferBase × List IntValue) :=
  collect (popInt host)

/-- An empty buffer has both indices at zero. -/
def Rewound (b : BufferBase) : Prop := b.readable = 0 → b.indexRead = 0 ∧ b.indexWrite = 0

variable {b : BufferBase}

lemma Rewound.hasRead {len : ℕ} (hlen : len ≤ b.readable) : (b.hasRead len).Rewound := by
  unfold BufferBase.hasRead
  split
  · exact fun _ => ⟨rfl, rfl⟩
  · next hne =>
    intro hzero
    simp only [readable] at hzero hlen hne
    omega

lemma Rewound.append (h : b.InRange) (want : ℕ) (src : List UInt8) :
    (append b want src).Rewound := by
  intro hzero
  have hread : (FlexBuffer.append b want src).indexRead = 0 := makeRoom_indexRead h want
  refine ⟨hread, ?_⟩
  rwa [readable, hread, Nat.sub_zero] at hzero

/-- What `pop_int` returns and leaves: the value that the first bytes denote, and the rest. -/
lemma popInt_spec (host : ByteOrder) {t : IntType} (h : b.InRange) (ht : t.bytes ≤ b.readable) :
    popInt host b t
      = some (b.hasRead t.bytes, .bigEndian t (b.readableView.take t.bytes)) := by
  have hb := h.read_add_readable_le
  have hlen : (slice b.container b.indexRead t.bytes).length = t.bytes :=
    length_slice (by omega)
  have hslice : b.readableView.take t.bytes = slice b.container b.indexRead t.bytes := by
    rw [readableView, take_slice, Nat.min_eq_left ht]
  simp only [popInt, if_pos ht, networkToHost_ofMemory host hlen, hslice]

lemma popInts_cons (host : ByteOrder) {t : IntType} {ts : List IntType} {b₁ b₂ : BufferBase}
    {v : IntValue} {vs : List IntValue} (h₁ : popInt host b t = some (b₁, v))
    (h₂ : popInts host b₁ ts = some (b₂, vs)) :
    popInts host b (t :: ts) = some (b₂, v :: vs) := by
  unfold popInts at h₂ ⊢
  simp [collect, h₁, h₂]

/-- The values that a stream denotes when it is cut into integers of these types. -/
def cut (ts : List IntType) (stream : List UInt8) : List IntValue :=
  List.zipWith .bigEndian ts ((ts.map IntType.bytes).splitLengths stream)

lemma cut_cons (t : IntType) (ts : List IntType) (stream : List UInt8) :
    cut (t :: ts) stream
      = .bigEndian t (stream.take t.bytes) :: cut ts (stream.drop t.bytes) := by
  simp only [cut, List.map_cons, List.splitLengths_cons, List.zipWith_cons_cons]

/-- A list of `pop_int` calls cuts up the readable bytes. -/
lemma popInts_spec (host : ByteOrder) (ts : List IntType) {b : BufferBase} (h : b.InRange)
    (hr : b.Rewound) (hts : (ts.map IntType.bytes).sum ≤ b.readable) :
    ∃ b', popInts host b ts = some (b', cut ts b.readableView) ∧ b'.Rewound ∧
      b'.readable = b.readable - (ts.map IntType.bytes).sum := by
  induction ts generalizing b with
  | nil => exact ⟨b, rfl, hr, rfl⟩
  | cons t ts ih =>
    rw [List.map_cons, List.sum_cons] at hts
    have ht : t.bytes ≤ b.readable := by omega
    have hleft := Stream.readable_hasRead b t.bytes
    obtain ⟨b', hpops, hr', hread⟩ := ih (h.hasRead ht) (Rewound.hasRead ht) (by omega)
    rw [readableView_hasRead] at hpops
    refine ⟨b', ?_, hr', ?_⟩
    · rw [cut_cons]
      exact popInts_cons host (popInt_spec host h ht) hpops
    · rw [List.map_cons, List.sum_cons]
      omega

end BufferBase

/-! ## The stream of a list of integers -/

/-- The big endian bytes of a list of integers. -/
def networkStream (vs : List IntValue) : List UInt8 := vs.flatMap IntValue.networkBytes

lemma length_networkStream (vs : List IntValue) :
    (networkStream vs).length = (vs.map fun v => v.type.bytes).sum := by
  simp only [networkStream, List.length_flatMap, IntValue.length_networkBytes]

/-- Cut as it was put together, the stream gives the integers back. -/
lemma cut_networkStream (vs : List IntValue) :
    cut (vs.map IntValue.type) (networkStream vs) = vs := by
  induction vs with
  | nil => rfl
  | cons v vs ih =>
    have hlen : v.networkBytes.length = v.type.bytes := v.length_networkBytes
    rw [List.map_cons, cut_cons, networkStream, List.flatMap_cons, ← hlen, List.take_left,
      List.drop_left, IntValue.bigEndian_networkBytes]
    exact congrArg (v :: ·) ih

/-- A buffer that integers were appended to and nothing was taken from. -/
structure Unread (b : BufferBase) (stream : List UInt8) : Prop where
  inRange : b.InRange
  indexRead : b.indexRead = 0
  view : b.readableView = stream

lemma Unread.rewound {b : BufferBase} {stream : List UInt8} (h : Unread b stream) :
    b.Rewound := by
  intro hzero
  refine ⟨h.indexRead, ?_⟩
  rwa [readable, h.indexRead, Nat.sub_zero] at hzero

lemma unread_fresh (initSize : ℕ) : Unread (fresh initSize) [] where
  inRange := fresh_inRange initSize
  indexRead := rfl
  view := rfl

/-- Appending keeps the read index at zero, where the bytes that are rebased lie already. -/
lemma Unread.appendInt (host : ByteOrder) {b : BufferBase} {stream : List UInt8}
    (h : Unread b stream) (v : IntValue) :
    Unread (appendInt host b v) (stream ++ v.networkBytes) := by
  have hbytes := memory_hostToNetwork host v
  rw [Coring.appendInt, hbytes]
  refine ⟨append_inRange h.inRange (le_writable_makeRoom _ _), makeRoom_indexRead h.inRange _, ?_⟩
  have hview := readableView_append h.inRange v.networkBytes.length v.networkBytes
  have hfront : slice b.container 0 b.readable = stream := by
    rw [← h.view, readableView, h.indexRead]
  rwa [hfront] at hview

lemma Unread.appendInts (host : ByteOrder) {b : BufferBase} {stream : List UInt8}
    (h : Unread b stream) (vs : List IntValue) :
    Unread (appendInts host b vs) (stream ++ networkStream vs) := by
  induction vs generalizing b stream with
  | nil => rwa [networkStream, List.flatMap_nil, List.append_nil]
  | cons v vs ih =>
    have hrest := ih (h.appendInt host v)
    rwa [List.append_assoc] at hrest

/-- **Integers in a buffer are one big endian stream.**  After any integers have been appended to a
fresh buffer, any list of `pop_int` calls that asks for no more bytes than there are succeeds; it
returns the values that the slices of the stream denote, and the integers themselves if it asks
for their types; and popping all the bytes leaves both indices at zero. -/
theorem popInts_appendInts (host : ByteOrder) (initSize : ℕ) (vs : List IntValue)
    (ts : List IntType)
    (hts : (ts.map IntType.bytes).sum ≤ (vs.map fun v => v.type.bytes).sum) :
    ∃ b', popInts host (appendInts host (fresh initSize) vs) ts
        = some (b', cut ts (networkStream vs)) ∧
      (ts = vs.map IntValue.type → cut ts (networkStream vs) = vs) ∧
      ((ts.map IntType.bytes).sum = (vs.map fun v => v.type.bytes).sum →
        b'.indexRead = 0 ∧ b'.indexWrite = 0) := by
  have hall := (unread_fresh initSize).appendInts host vs
  rw [List.nil_append] at hall
  have hread : (appendInts host (fresh initSize) vs).readable
      = (vs.map fun v => v.type.bytes).sum := by
    rw [← length_readableView hall.inRange, hall.view, length_networkStream]
  obtain ⟨b', hpops, hr, hleft⟩ :=
    popInts_spec host ts hall.inRange hall.rewound (hread ▸ hts)
  rw [hall.view] at hpops
  refine ⟨b', hpops, ?_, ?_⟩
  · rintro rfl
    exact cut_networkStream vs
  · intro heq
    exact hr (by omega)

/-- A negative 32-bit integer and a byte, taken out as an unsigned 16-bit integer and the rest. -/
theorem popInts_appendInts_recut :
    ∃ b', popInts .little (appendInts .little (fresh 2)
        [⟨⟨true, .w32⟩, -2, by decide⟩, ⟨⟨false, .w8⟩, 7, by decide⟩])
        [⟨false, .w16⟩, ⟨true, .w8⟩, ⟨false, .w16⟩]
        = some (b', [⟨⟨false, .w16⟩, 65535, by decide⟩, ⟨⟨true, .w8⟩, -1, by decide⟩,
            ⟨⟨false, .w16⟩, 65031, by decide⟩]) ∧
      b'.indexRead = 0 ∧ b'.indexWrite = 0 := by
  obtain ⟨b', hpops, -, hzero⟩ := popInts_appendInts .little 2
    [⟨⟨true, .w32⟩, -2, by decide⟩, ⟨⟨false, .w8⟩, 7, by decide⟩]
    [⟨false, .w16⟩, ⟨true, .w8⟩, ⟨false, .w16⟩] (by decide)
  exact ⟨b', hpops.trans (congrArg (fun vs => some (b', vs)) (by decide)), hzero (by decide)⟩

end Coring
