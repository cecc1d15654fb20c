import Coring.Framework.Search
import Coring.Buffer.Stream
import Mathlib.Algebra.Group.Nat.Defs
import Mathlib.Data.Int.Notation

/-!
# The socket readers

`include/coring/socket_reader.hpp` offers four coroutines that fill a buffer from a connection:
`read_some` takes whatever one receive brings, `read_certain` waits for a number of bytes, and
`read_line` and `read_crlf_line` wait for a line.  Each comes in two overloads, written out
separately: one awaits `recv_some(dst, nbytes)`, the other `recv_some(dst, nbytes, dur)`, which
the kernel cancels when the duration is over.

The receives of a call are a list of what each of them did, in their order; a call that needs
more receives than the list has is left `waiting`.  A receive that returns zero is the end of the
stream, to the readers and here; one that is given no room returns zero too, on a stream that is
still open.  Both overloads of a reader are instances of one definition, with what distinguishes
them as its parameters.

Only `read_some` counts what it has received as written.  The other three leave the write index
where it was, so what they look at never changes (`readCertainFrom_of_lt`, `readLineFrom_of_none`):
`read_certain` comes back only if the bytes were there from the start, and so do the line readers.
-/

namespace Coring

/-! ## Searches in a buffer -/

/-- The two characters of `kCRLF` that `find_crlf` looks for. -/
def crlf : List UInt8 := [13, 10]

/-- `'\n'`. -/
def eol : UInt8 := 10

namespace BufferBase

/-- `find_eol()`, as an offset from `front()`: `memchr` over the readable bytes. -/
def findEol (b : BufferBase) : Option ℕ := b.readableView.findIdx? (· == eol)

/-- `find_crlf()`, as an offset from `front()`: `std::search`, whose result `back()` stands for
no occurrence. -/
def findCrlf (b : BufferBase) : Option ℕ :=
  let found := search crlf b.readableView
  if found = b.readable then none else some found

end BufferBase

/-! ## Fixed buffers -/

/-- The two kinds of buffer a reader can be given. -/
inductive BufferKind
  | fixed
  | flex
  deriving Repr, DecidableEq

/-- `make_room`: the buffer it leaves, and whether it returns.  A `fixed_buffer` rebases its
indices as a `flex_buffer` does, but it throws where that would grow. -/
def BufferKind.makeRoom (b : BufferBase) (want : ℕ) : BufferKind → BufferBase × Bool
  | .fixed => (FlexBuffer.compact b, ¬ (FlexBuffer.compact b).writable < want)
  | .flex => (FlexBuffer.makeRoom b want, true)

/-! ## Receives -/

/-- `ECANCELED`. -/
def eCanceled : ℤ := 125

/-- What an awaited `recv_some(dst, nbytes, dur)` did. -/
inductive TimedRecv
  | completed (r : RecvResult)
  /-- The linked timeout fired first. -/
  | timedOut
  deriving Repr, DecidableEq

/-- The value it returns, and what it stored. -/
def TimedRecv.result : TimedRecv → RecvResult
  | .completed r => r
  | .timedOut => ⟨-eCanceled, []⟩

/-- How a call of a reader ends. -/
inductive Outcome (ρ : Type)
  | returned (value : ρ)
  | threw (e : ReadError)
  /-- `std::runtime_error` from `fixed_buffer::make_room`. -/
  | noRoom
  /-- The call awaits another receive. -/
  | waiting
  deriving Repr, DecidableEq

/-- What a call of a reader comes to: the buffer it leaves, the number of receives it has used,
and how it ends. -/
structure Reading (ρ : Type) where
  buffer : BufferBase
  used : ℕ
  outcome : Outcome ρ
  deriving Repr, DecidableEq

/-- One more receive before a reading. -/
def Reading.after {ρ : Type} (r : Reading ρ) : Reading ρ := { r with used := r.used + 1 }

/-- The conversion of a length to the `int` that is returned. -/
def toInt (n : ℕ) : ℤ := (n : ℤ).bmod (2 ^ 32)

/-! ## The readers -/

section Readers

variable {ω : Type} (recvSome : ω → RecvResult)

/-- The body of `read_some`. -/
def readSomeFrom (kind : BufferKind) (b : BufferBase) (rs : List ω) : Reading ℤ :=
  let (b, room) := kind.makeRoom b readBufferAtLeastWritable
  if room then
    match rs with
    | [] => ⟨b, 0, .waiting⟩
    | r :: _ =>
        let b := b.storeAtBack (recvSome r).stored
        let ret := (recvSome r).ret
        if ret = 0 then ⟨b, 1, .threw .eofError⟩
        else if ret < 0 then ⟨b, 1, .threw (.systemError (-ret))⟩
        else ⟨b.hasWritten ret.toNat, 1, .returned ret⟩
  else ⟨b, 0, .noRoom⟩

/-- The body of `read_certain`. -/
def readCertainFrom (nbytes : ℕ) : BufferBase → List ω → Reading Unit
  | b, [] => ⟨b, 0, if b.readable < nbytes then .waiting else .returned ()⟩
  | b, r :: rs =>
      if b.readable < nbytes then
        let b := b.storeAtBack (recvSome r).stored
        let ret := (recvSome r).ret
        if ret = 0 then ⟨b, 1, .threw .eofError⟩
        else if ret < 0 then ⟨b, 1, .threw (.systemError (-ret))⟩
        else (readCertainFrom nbytes b rs).after
      else ⟨b, 0, .returned ()⟩

variable (find : BufferBase → Option ℕ) (extra : ℕ)

/-- The loop of the line readers; its first argument is `end`. -/
def readLineLoop : Option ℕ → BufferBase → List ω → Reading ℤ
  | some found, b, _ => ⟨b, 0, .returned (toInt (found + extra))⟩
  | none, b, [] => ⟨b, 0, .waiting⟩
  | none, b, r :: rs =>
      let b := b.storeAtBack (recvSome r).stored
      let ret := (recvSome r).ret
      let found := find b
      if ret = 0 then ⟨b, 1, .threw .eofError⟩
      else if ret < 0 then ⟨b, 1, .threw (.systemError (-ret))⟩
      else (readLineLoop found b rs).after

/-- The body of a line reader: `find` is its search, and `extra` what it adds to the offset the
search has found. -/
def readLineFrom (b : BufferBase) (rs : List ω) : Reading ℤ :=
  readLineLoop recvSome find extra (if b.readable > 0 then find b else none) b rs

end Readers

/-- `read_some(sock, buffer)`. -/
def readSomeUntimed (kind : BufferKind) (b : BufferBase) (rs : List RecvResult) : Reading ℤ :=
  readSomeFrom id kind b rs

/-- `read_certain(sock, buffer, nbytes)`. -/
def readCertain (b : BufferBase) (nbytes : ℕ) (rs : List RecvResult) : Reading Unit :=
  readCertainFrom id nbytes b rs

/-- `read_line(sock, buffer)`. -/
def readLine (b : BufferBase) (rs : List RecvResult) : Reading ℤ :=
  readLineFrom id BufferBase.findEol 1 b rs

/-- `read_crlf_line(sock, buffer)`. -/
def readCrlfLine (b : BufferBase) (rs : List RecvResult) : Reading ℤ :=
  readLineFrom id BufferBase.findCrlf 2 b rs

/-- `read_some(sock, buffer, dur)`. -/
def readSomeTimed (kind : BufferKind) (b : BufferBase) (rs : List TimedRecv) : Reading ℤ :=
  readSomeFrom TimedRecv.result kind b rs

/-- `read_certain(sock, buffer, nbytes, dur)`. -/
def readCertainTimed (b : BufferBase) (nbytes : ℕ) (rs : List TimedRecv) : Reading Unit :=
  readCertainFrom TimedRecv.result nbytes b rs

/-- `read_line(sock, buffer, dur)`. -/
def readLineTimed (b : BufferBase) (rs : List TimedRecv) : Reading ℤ :=
  readLineFrom TimedRecv.result BufferBase.findEol 1 b rs

/-- `read_crlf_line(sock, buffer, dur)`.  It adds one to the offset of the `'\r'`, where the
overload without a duration adds two. -/
def readCrlfLineTimed (b : BufferBase) (rs : List TimedRecv) : Reading ℤ :=
  readLineFrom TimedRecv.result BufferBase.findCrlf 1 b rs

/-! ## Receives that are not counted -/

namespace BufferBase

variable {b : BufferBase}

lemma InRange.storeAtBack (h : b.InRange) (src : List UInt8) : (b.storeAtBack src).InRange := by
  obtain ⟨hrw, hws⟩ := h
  refine ⟨hrw, ?_⟩
  rw [size] at hws
  simp only [BufferBase.storeAtBack, size, overwrite, List.length_append, List.length_take]
  omega

/-- Bytes behind the write index are not readable. -/
lemma readableView_storeAtBack (h : b.InRange) (src : List UInt8) :
    (b.storeAtBack src).readableView = b.readableView := by
  have hw : b.indexRead + b.readable ≤ b.indexWrite := by
    rw [readable, Nat.add_sub_cancel' h.1]
  exact slice_overwrite_of_le hw h.2

lemma readable_eq_zero_iff (h : b.InRange) : b.readable = 0 ↔ b.readableView = [] := by
  rw [← List.length_eq_zero_iff, length_readableView h]

end BufferBase

/-- The bytes the leading receives have brought, up to the first that brings none. -/
def received (rs : List RecvResult) : List UInt8 :=
  (rs.takeWhile fun r => 0 < r.ret).flatMap RecvResult.stored

section Certain

variable {ω : Type} {recvSome : ω → RecvResult} {b : BufferBase} {nbytes : ℕ}

lemma readCertainFrom_of_le (h : nbytes ≤ b.readable) (rs : List ω) :
    readCertainFrom recvSome nbytes b rs = ⟨b, 0, .returned ()⟩ := by
  cases rs with
  | nil => rw [readCertainFrom, if_neg (Nat.not_lt.mpr h)]
  | cons r rs => rw [readCertainFrom, if_neg (Nat.not_lt.mpr h)]

/-- Without the bytes at the start there is no end to the loop but an exception. -/
lemma readCertainFrom_of_lt (h : b.readable < nbytes) (rs : List ω) :
    (readCertainFrom recvSome nbytes b rs).outcome ≠ .returned () := by
  induction rs generalizing b with
  | nil => simp [readCertainFrom, h]
  | cons r rs ih =>
    simp only [readCertainFrom, if_pos h]
    split
    · simp
    · split
      · simp
      · exact ih h

end Certain

/-- What `read_certain` promises for its receives: if they bring the bytes, it returns; if it
returns, the buffer shows what it showed before and then what was received, `nbytes` at least;
and an `eof_error` means that the bytes were not brought. -/
def DeliversCertain (b : BufferBase) (nbytes : ℕ) (rs : List RecvResult) : Prop :=
  let reading := readCertain b nbytes rs
  (nbytes ≤ b.readable + (received rs).length → reading.outcome = .returned ()) ∧
  (reading.outcome = .returned () →
    reading.buffer.readableView = b.readableView ++ received (rs.take reading.used) ∧
    nbytes ≤ reading.buffer.readableView.length) ∧
  (reading.outcome = .threw .eofError → b.readable + (received rs).length < nbytes)

/-- **When `read_certain` keeps its promise**: when the bytes were readable before it was called,
or when the receives do not bring them. -/
theorem deliversCertain_iff (b : BufferBase) (hb : b.InRange) (nbytes : ℕ)
    (rs : List RecvResult) :
    DeliversCertain b nbytes rs ↔
      nbytes ≤ b.readable ∨ b.readable + (received rs).length < nbytes := by
  by_cases h : nbytes ≤ b.readable
  · have hread : readCertain b nbytes rs = ⟨b, 0, .returned ()⟩ := readCertainFrom_of_le h rs
    refine ⟨fun _ => .inl h, fun _ => ⟨fun _ => by rw [hread], fun _ => ?_, fun heof => ?_⟩⟩
    · rw [hread]
      refine ⟨?_, ?_⟩
      · simp [received]
      · rwa [BufferBase.length_readableView hb]
    · rw [hread] at heof
      cases heof
  · have hread : (readCertain b nbytes rs).outcome ≠ .returned () :=
      readCertainFrom_of_lt (Nat.not_le.mp h) rs
    constructor
    · rintro ⟨hreturns, -, -⟩
      exact .inr (Nat.not_le.mp fun hle => hread (hreturns hle))
    · rintro (hle | hlt)
      · exact absurd hle h
      · exact ⟨fun hle => absurd hle (Nat.not_le.mpr hlt), fun hret => absurd hret hread,
          fun _ => hlt⟩

/-- Two bytes are readable and two are asked for. -/
theorem deliversCertain_iff_already_readable :
    DeliversCertain ⟨[1, 2, 3, 4], 1, 3⟩ 2 [.chunk [9]] :=
  (deliversCertain_iff ⟨[1, 2, 3, 4], 1, 3⟩ ⟨by decide, by decide⟩ 2 [.chunk [9]]).mpr
    (.inl (by decide))

/-- One byte is asked for and received; `read_certain` goes on to the end of the stream. -/
theorem deliversCertain_fails_on_one_byte :
    ¬ DeliversCertain (FlexBuffer.fresh 4) 1 [.chunk [7], ⟨0, []⟩] := by
  rintro ⟨-, -, heof⟩
  exact absurd (heof (by decide)) (by decide)

/-! ## Lines -/

/-- The readers that wait for a line. -/
inductive LineReader
  | line
  | crlfLine
  deriving Repr, DecidableEq

namespace LineReader

def terminator : LineReader → List UInt8
  | .line => [eol]
  | .crlfLine => crlf

/-- The search in the buffer. -/
def find : LineReader → BufferBase → Option ℕ
  | .line => BufferBase.findEol
  | .crlfLine => BufferBase.findCrlf

/-- The overload without a duration. -/
def read : LineReader → BufferBase → List RecvResult → Reading ℤ
  | .line => readLine
  | .crlfLine => readCrlfLine

lemma terminator_ne_nil (r : LineReader) : r.terminator ≠ [] := by
  cases r <;> exact List.cons_ne_nil _ _

lemma read_eq (r : LineReader) (b : BufferBase) (rs : List RecvResult) :
    r.read b rs = readLineFrom id r.find r.terminator.length b rs := by
  cases r <;> rfl

end LineReader

lemma findIdx?_eq_search (x : UInt8) (l : List UInt8) :
    l.findIdx? (· == x) = if search [x] l < l.length then some (search [x] l) else none := by
  induction l with
  | nil => rfl
  | cons y l ih =>
    by_cases hy : y = x
    · subst hy
      simp [search, List.findIdx?_cons]
    · have hne : ¬ x = y := fun h => hy h.symm
      simp only [List.findIdx?_cons, search, ih, List.isPrefixOf, beq_iff_eq, hy, hne,
        Bool.and_true, if_false, List.length_cons, Nat.add_lt_add_iff_right]
      split <;> rfl

lemma findCrlf_eq {b : BufferBase} (hb : b.InRange) :
    b.findCrlf = if search crlf b.readableView < b.readableView.length
      then some (search crlf b.readableView) else none := by
  have hle := search_le_length crlf b.readableView
  simp only [BufferBase.findCrlf, ← BufferBase.length_readableView hb]
  by_cases h : search crlf b.readableView = b.readableView.length
  · rw [if_pos h, if_neg (Nat.not_lt.mpr h.ge)]
  · rw [if_neg h, if_pos (Nat.lt_of_le_of_ne hle h)]

/-- Both searches find the first occurrence of their terminator. -/
lemma find_eq (r : LineReader) {b : BufferBase} (hb : b.InRange) :
    r.find b = if search r.terminator b.readableView < b.readableView.length
      then some (search r.terminator b.readableView) else none := by
  cases r with
  | line => exact findIdx?_eq_search eol b.readableView
  | crlfLine => exact findCrlf_eq hb

lemma find_eq_none_iff (r : LineReader) {b : BufferBase} (hb : b.InRange) :
    r.find b = none ↔ ¬ r.terminator <:+: b.readableView := by
  rw [find_eq r hb, ← search_lt_iff r.terminator_ne_nil]
  split
  · next h => simp [h]
  · next h => simp [h]

/-- The line that ends at the occurrence found. -/
lemma firstEnd_of_find (r : LineReader) {b : BufferBase} (hb : b.InRange) {found : ℕ}
    (h : r.find b = some found) :
    FirstEnd r.terminator b.readableView (found + r.terminator.length) := by
  rw [find_eq r hb] at h
  split at h
  · next hlt =>
    rw [← Option.some_inj.mp h]
    exact firstEnd_search r.terminator_ne_nil hlt
  · cases h

lemma find_storeAtBack (r : LineReader) {b : BufferBase} (hb : b.InRange) (src : List UInt8) :
    r.find (b.storeAtBack src) = r.find b := by
  rw [find_eq r hb, find_eq r (hb.storeAtBack src), BufferBase.readableView_storeAtBack hb]

section Loop

variable {ω : Type} {recvSome : ω → RecvResult} {r : LineReader} {b : BufferBase} {extra : ℕ}

/-- The test for an empty buffer saves a search and changes nothing. -/
lemma readLineFrom_eq_loop (hb : b.InRange) (rs : List ω) :
    readLineFrom recvSome r.find extra b rs
      = readLineLoop recvSome r.find extra (r.find b) b rs := by
  rw [readLineFrom]
  split
  · rfl
  · next h =>
    have hempty : b.readableView = [] := (b.readable_eq_zero_iff hb).mp (by omega)
    rw [(find_eq_none_iff r hb).mpr]
    rw [hempty, List.infix_nil]
    exact r.terminator_ne_nil

lemma readLineFrom_of_some (hb : b.InRange) {found : ℕ} (h : r.find b = some found)
    (rs : List ω) :
    readLineFrom recvSome r.find extra b rs = ⟨b, 0, .returned (toInt (found + extra))⟩ := by
  rw [readLineFrom_eq_loop hb, h, readLineLoop]

/-- A line that is not there at the start is never found, whatever is received; and what the
reader would add to its offset does not matter. -/
lemma readLineFrom_of_none (hb : b.InRange) (h : r.find b = none) (rs : List ω) :
    (∀ value, (readLineFrom recvSome r.find extra b rs).outcome ≠ .returned value) ∧
    ∀ extra', readLineFrom recvSome r.find extra b rs
      = readLineFrom recvSome r.find extra' b rs := by
  simp only [readLineFrom_eq_loop hb, h]
  induction rs generalizing b with
  | nil => simp [readLineLoop]
  | cons x rs ih =>
    have hb' := hb.storeAtBack (recvSome x).stored
    have hnone : r.find (b.storeAtBack (recvSome x).stored) = none := by
      rw [find_storeAtBack r hb, h]
    obtain ⟨ihout, ihextra⟩ := ih hb' hnone
    simp only [readLineLoop, hnone]
    constructor
    · intro value
      split
      · simp
      · split
        · simp
        · exact ihout value
    · intro extra'
      rw [ihextra extra']

end Loop

/-- What a line reader promises for its receives: if the readable bytes followed by what is
received have a line, it returns the length of the first one, which the buffer then begins with;
and an `eof_error` means that there is none. -/
def FindsLine (r : LineReader) (b : BufferBase) (rs : List RecvResult) : Prop :=
  let reading := r.read b rs
  (∀ len, FirstEnd r.terminator (b.readableView ++ received rs) len →
    reading.outcome = .returned len ∧
    reading.buffer.readableView.take len = (b.readableView ++ received rs).take len) ∧
  (reading.outcome = .threw .eofError →
    ¬ r.terminator <:+: b.readableView ++ received rs)

lemma toInt_eq_iff (n : ℕ) : toInt n = n ↔ n < 2 ^ 31 := by
  constructor
  · intro h
    have hlt := Int.bmod_lt (x := n) (m := 2 ^ 32) (by decide)
    have heq : (n : ℤ).bmod (2 ^ 32) = n := h
    rw [heq] at hlt
    simp only [Nat.reducePow] at hlt
    omega
  · intro h
    refine Int.bmod_eq_of_le ?_ ?_
    · simp only [Nat.reducePow]
      omega
    · simp only [Nat.reducePow]
      omega

lemma bmod_ne_succ {m : ℕ} (hm : 1 < m) (x : ℤ) : x.bmod m ≠ (x + 1).bmod m := by
  intro h
  have hmod : (x + 1) % m = x % m := by rw [← Int.bmod_emod, ← h, Int.bmod_emod]
  have hdvd : (m : ℤ) ∣ x + 1 - x :=
    Int.dvd_of_emod_eq_zero (Int.emod_eq_emod_iff_emod_sub_eq_zero.mp hmod)
  have hle := Int.le_of_dvd (by omega) hdvd
  omega

lemma toInt_ne_succ (n : ℕ) : toInt n ≠ toInt (n + 1) :=
  bmod_ne_succ (by decide) n

/-- **When a line reader keeps its promise**: when the line was readable before it was called,
and its length is an `int`, or when there is none in the readable bytes and what is received. -/
theorem findsLine_iff (r : LineReader) (b : BufferBase) (hb : b.InRange)
    (rs : List RecvResult) :
    FindsLine r b rs ↔
      (∃ len, FirstEnd r.terminator b.readableView len ∧ len < 2 ^ 31) ∨
      ¬ r.terminator <:+: b.readableView ++ received rs := by
  simp only [FindsLine, r.read_eq]
  cases h : r.find b with
  | some found =>
    have hfirst := firstEnd_of_find r hb h
    have hcomb := hfirst.append (received rs)
    rw [readLineFrom_of_some hb h]
    constructor
    · rintro ⟨hret, -⟩
      have hval := (hret _ hcomb).1
      rw [Outcome.returned.injEq, toInt_eq_iff] at hval
      exact .inl ⟨_, hfirst, hval⟩
    · rintro (⟨len, hlen, hlt⟩ | hno)
      · refine ⟨fun len' hlen' => ?_, fun heof => by cases heof⟩
        obtain rfl := hlen'.unique hcomb
        obtain rfl := hlen.unique hfirst
        rw [Outcome.returned.injEq, toInt_eq_iff]
        exact ⟨hlt, (List.take_append_of_le_length hfirst.1).symm⟩
      · exact absurd hcomb.isInfix hno
  | none =>
    have hnone := (find_eq_none_iff r hb).mp h
    have hout : ∀ value, (readLineFrom id r.find r.terminator.length b rs).outcome
        ≠ .returned value := (readLineFrom_of_none hb h rs).1
    constructor
    · rintro ⟨hret, -⟩
      refine .inr fun hin => ?_
      obtain ⟨len, hlen⟩ := (exists_firstEnd_iff r.terminator_ne_nil).mpr hin
      exact hout _ (hret len hlen).1
    · rintro (⟨len, hlen, -⟩ | hno)
      · exact absurd hlen.isInfix hnone
      · exact ⟨fun len hlen => absurd hlen.isInfix hno, fun _ => hno⟩

/-- The line `"a\r\n"` is readable, with the beginning of another one. -/
theorem findsLine_iff_already_readable :
    FindsLine .crlfLine ⟨[97, 13, 10, 98, 0], 0, 4⟩ [.chunk [13]] :=
  (findsLine_iff .crlfLine ⟨[97, 13, 10, 98, 0], 0, 4⟩ ⟨by decide, by decide⟩ [.chunk [13]]).mpr
    (.inl ⟨3, by decide, by decide⟩)

/-- The two characters of a line end are received one by one; `read_crlf_line` goes on to the end
of the stream, and so does `read_line`. -/
theorem findsLine_fails_on_received_line :
    ¬ FindsLine .crlfLine (FlexBuffer.fresh 4) [.chunk [13], .chunk [10], ⟨0, []⟩] ∧
    ¬ FindsLine .line (FlexBuffer.fresh 4) [.chunk [13], .chunk [10], ⟨0, []⟩] := by
  constructor
  · rintro ⟨-, heof⟩
    exact heof (by decide) (by decide)
  · rintro ⟨-, heof⟩
    exact heof (by decide) (by decide)

/-! ## The two overloads -/

section Timed

variable {ω : Type} {recvSome : ω → RecvResult} {b : BufferBase}

lemma readSomeFrom_map (kind : BufferKind) (rs : List RecvResult) :
    readSomeFrom TimedRecv.result kind b (rs.map .completed) = readSomeFrom id kind b rs := by
  cases rs <;> rfl

lemma readCertainFrom_map (nbytes : ℕ) (rs : List RecvResult) :
    readCertainFrom TimedRecv.result nbytes b (rs.map .completed)
      = readCertainFrom id nbytes b rs := by
  induction rs generalizing b with
  | nil => rfl
  | cons r rs ih =>
    rw [List.map_cons, readCertainFrom, readCertainFrom]
    simp only [ih, TimedRecv.result, id]

lemma readLineFrom_map (find : BufferBase → Option ℕ) (extra : ℕ) (rs : List RecvResult) :
    readLineFrom TimedRecv.result find extra b (rs.map .completed)
      = readLineFrom id find extra b rs := by
  simp only [readLineFrom]
  generalize (if b.readable > 0 then find b else none) = found
  induction rs generalizing b found with
  | nil => cases found <;> rfl
  | cons r rs ih =>
    cases found with
    | some k => rfl
    | none =>
      rw [List.map_cons, readLineLoop, readLineLoop]
      simp only [ih, TimedRecv.result, id]

end Timed

/-- **When the two overloads of a reader agree.**  As long as no timeout fires, `read_some`,
`read_certain` and `read_line` come to the same with a duration as without one; `read_crlf_line`
does if and only if no line was readable before it was called. -/
theorem timed_eq_untimed_iff (b : BufferBase) (hb : b.InRange) (rs : List RecvResult) :
    (∀ kind, readSomeTimed kind b (rs.map .completed) = readSomeUntimed kind b rs) ∧
    (∀ nbytes, readCertainTimed b nbytes (rs.map .completed) = readCertain b nbytes rs) ∧
    readLineTimed b (rs.map .completed) = readLine b rs ∧
    (readCrlfLineTimed b (rs.map .completed) = readCrlfLine b rs ↔
      ¬ crlf <:+: b.readableView) := by
  refine ⟨fun kind => readSomeFrom_map kind rs, fun nbytes => readCertainFrom_map nbytes rs,
    readLineFrom_map _ _ rs, ?_⟩
  rw [readCrlfLineTimed, readLineFrom_map, readCrlfLine]
  change readLineFrom id (LineReader.find .crlfLine) 1 b rs
    = readLineFrom id (LineReader.find .crlfLine) 2 b rs ↔ _
  cases h : LineReader.find .crlfLine b with
  | none => exact iff_of_true ((readLineFrom_of_none hb h rs).2 2) ((find_eq_none_iff _ hb).mp h)
  | some found =>
    have hin : crlf <:+: b.readableView := (firstEnd_of_find .crlfLine hb h).isInfix
    refine iff_of_false (fun heq => ?_) (fun hno => hno hin)
    rw [readLineFrom_of_some hb h, readLineFrom_of_some hb h] at heq
    simp only [Reading.mk.injEq, Outcome.returned.injEq, true_and] at heq
    exact toInt_ne_succ _ heq

/-- A readable `'\r'` whose `'\n'` never comes. -/
theorem timed_eq_untimed_iff_no_line :
    readCrlfLineTimed ⟨[13, 0, 0], 0, 1⟩ [.completed (.chunk [98]), .completed ⟨0, []⟩]
      = readCrlfLine ⟨[13, 0, 0], 0, 1⟩ [.chunk [98], ⟨0, []⟩] :=
  (timed_eq_untimed_iff ⟨[13, 0, 0], 0, 1⟩ ⟨by decide, by decide⟩
    [.chunk [98], ⟨0, []⟩]).2.2.2.mpr (by decide)

/-- The line `"a\r\n"` is readable: its length is 3, and with a duration it comes out as 2. -/
theorem timed_differs_on_readable_line :
    readCrlfLine ⟨[97, 13, 10], 0, 3⟩ [] = ⟨⟨[97, 13, 10], 0, 3⟩, 0, .returned 3⟩ ∧
    readCrlfLineTimed ⟨[97, 13, 10], 0, 3⟩ [] = ⟨⟨[97, 13, 10], 0, 3⟩, 0, .returned 2⟩ := by
  decide

end Coring
