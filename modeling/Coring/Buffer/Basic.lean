import Mathlib.Data.Int.Notation
import Coring.Framework.Storage

/-!
# The byte buffers

`include/coring/buffer.hpp` keeps a container of bytes and two indices into it: the bytes
between `index_read_` and `index_write_` are readable, those from `index_write_` to the end
of the container are writable.  This file embeds `detail::buffer_base` and the operations of
`flex_buffer`, whose container is a `std::vector<char>` that `make_room` may grow, and the
untimed `read_some` of `include/coring/socket_reader.hpp`, the reader that fills a buffer
through its write index.

A pointer into the container (`front()`, `back()`, the operands of `::memmove`) is an offset
into the list of bytes.  Indices and lengths are natural numbers: the memory a container can
occupy keeps every one of them far below `SIZE_MAX`.  The assertion of `has_read` is not part
of the function; a caller that must meet it is told so where the calls are listed.
-/

namespace Coring

/-- `READ_BUFFER_AT_LEAST_WRITABLE`. -/
def readBufferAtLeastWritable : ℕ := 128

/-- `detail::buffer_base`: the container and the two indices into it. -/
structure BufferBase where
  container : List UInt8
  indexRead : ℕ := 0
  indexWrite : ℕ := 0
  deriving Repr, DecidableEq

namespace BufferBase

variable (b : BufferBase)

def size : ℕ := b.container.length

def readable : ℕ := b.indexWrite - b.indexRead

def writable : ℕ := b.size - b.indexWrite

/-- The bytes from `front()` on, `readable()` of them. -/
def readableView : List UInt8 := slice b.container b.indexRead b.readable

def clear : BufferBase := { b with indexRead := 0, indexWrite := 0 }

def hasRead (len : ℕ) : BufferBase :=
  if len = b.readable then b.clear else { b with indexRead := b.indexRead + len }

/-- The string taken and the buffer it leaves.  Asking for more than is readable takes all of
it. -/
def popString (len : ℕ) : List UInt8 × BufferBase :=
  let len := if len > b.readable then b.readable else len
  (slice b.container b.indexRead len, b.hasRead len)

def hasWritten (len : ℕ) : BufferBase := { b with indexWrite := b.indexWrite + len }

/-- A copy of `src` to `back()`: what `::memcpy` into the tail, or the kernel serving a
receive, does to the container. -/
def storeAtBack (src : List UInt8) : BufferBase :=
  { b with container := overwrite b.container b.indexWrite src }

end BufferBase

/-- `std::vector<char>::resize`: cut off, or filled up with zero bytes. -/
def resize (v : List UInt8) (n : ℕ) : List UInt8 := v.take n ++ List.replicate (n - v.length) 0

namespace FlexBuffer

/-- `flex_buffer::flex_buffer(int init_size)`. -/
def fresh (initSize : ℕ) : BufferBase := { container := List.replicate initSize 0 }

/-- The first half of `make_room`: with a read index above zero the indices are rebased to
zero.  The `::memmove` that goes with it has `container_.data() + index_read_` for its
destination and `front()`, the same address, for its source. -/
def compact (b : BufferBase) : BufferBase :=
  if b.indexRead > 0 then
    let nowHave := b.readable
    { container := overwrite b.container b.indexRead (slice b.container b.indexRead nowHave)
      indexRead := 0
      indexWrite := nowHave }
  else b

def makeRoom (b : BufferBase) (want : ℕ) : BufferBase :=
  let b := compact b
  if b.writable < want then
    { b with container := resize b.container (b.indexWrite + want) }
  else b

/-- `emplace_back(char)`: no room is made. -/
def emplaceBack (b : BufferBase) (ch : UInt8) : BufferBase := (b.storeAtBack [ch]).hasWritten 1

/-- `push_back(char)`. -/
def pushBackChar (b : BufferBase) (ch : UInt8) : BufferBase := emplaceBack (makeRoom b 1) ch

/-- `push_back(const void *src, size_t len)`, with `src` the `len` bytes at that address. -/
def pushBack (b : BufferBase) (src : List UInt8) : BufferBase :=
  ((makeRoom b src.length).storeAtBack src).hasWritten src.length

def pushBackString (b : BufferBase) (str : List UInt8) : BufferBase := pushBack b str

end FlexBuffer

/-! ## The untimed `read_some` -/

/-- What one `recv` did: the value it returned and the bytes it stored at the address it was
given. -/
structure RecvResult where
  ret : ℤ
  stored : List UInt8
  deriving Repr, DecidableEq

/-- A completed receive of a non-empty chunk. -/
def RecvResult.chunk (bytes : List UInt8) : RecvResult := ⟨bytes.length, bytes⟩

/-- The two exceptions a reader throws. -/
inductive ReadError
  /-- `coring::eof_error`. -/
  | eofError
  /-- `std::system_error` with this error code. -/
  | systemError (code : ℤ)
  deriving Repr, DecidableEq

/-- `read_some(sock, buffer)` on a `flex_buffer`: room is made before the receive is awaited,
so a receive that ends in an exception leaves the compacted buffer behind. -/
def readSome (b : BufferBase) (recvSome : RecvResult) : BufferBase × Except ReadError ℤ :=
  let b := (FlexBuffer.makeRoom b readBufferAtLeastWritable).storeAtBack recvSome.stored
  if recvSome.ret = 0 then (b, .error .eofError)
  else if recvSome.ret < 0 then (b, .error (.systemError (-recvSome.ret)))
  else (b.hasWritten recvSome.ret.toNat, .ok recvSome.ret)

end Coring
