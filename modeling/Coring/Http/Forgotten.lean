import Coring.Http.Server

/-!
# What a connection forgets

`do_http` resets its context after every receive.  If the receive has brought the request line and
some header lines, but not the end of the request, these lines have been taken from the buffer and
the context that knew them is gone.

What is left is worse than nothing if the receive has cut a line as well: the cut line is still
readable, but the next call of `make_room` shows the front of the container in its place, which
holds the beginning of the request line.  `doHttp_forgets` says what this comes to, for every
connection that waits for a request and everything that may be received afterwards: the connection
goes on as if, of all that was in its buffer, only so many bytes from the front had been there as
the cut line has.  If the receive ends with a line, it is as if nothing had been received.
-/

namespace Coring

namespace Http

open BufferBase HttpContext

/-! ## Buffers that behave alike -/

/-- The same indices, and the same bytes up to the write index. -/
structure Alike (b b' : BufferBase) : Prop where
  read : b.indexRead = b'.indexRead
  write : b.indexWrite = b'.indexWrite
  size : b.size = b'.size
  written : b.container.take b.indexWrite = b'.container.take b'.indexWrite

/-- The same bytes once `make_room` has rebased the indices. -/
structure SameFront (b b' : BufferBase) : Prop where
  inRange : b.InRange
  inRange' : b'.InRange
  readable : b.readable = b'.readable
  size : b.size = b'.size
  front : b.container.take b.readable = b'.container.take b'.readable

section Alike

variable {b b' : BufferBase} {src : Bytes} {len : ℕ}

lemma Alike.readable (h : Alike b b') : b.readable = b'.readable := by
  rw [BufferBase.readable, BufferBase.readable, h.read, h.write]

lemma Alike.inRange (h : Alike b b') (hb : b.InRange) : b'.InRange := by
  obtain ⟨hrw, hws⟩ := hb
  refine ⟨?_, ?_⟩
  · rw [← h.read, ← h.write]
    exact hrw
  · rw [← h.write, ← h.size]
    exact hws

/-- The readable bytes are among those before the write index. -/
lemma readableView_eq_drop (b : BufferBase) :
    b.readableView = (b.container.take b.indexWrite).drop b.indexRead := by
  rw [List.drop_take]
  rfl

lemma Alike.readableView (h : Alike b b') : b.readableView = b'.readableView := by
  rw [readableView_eq_drop b, readableView_eq_drop b', h.written, h.read]

lemma Alike.hasRead (h : Alike b b') : Alike (b.hasRead len) (b'.hasRead len) := by
  unfold BufferBase.hasRead
  rw [← h.readable]
  split
  · exact ⟨rfl, rfl, h.size, rfl⟩
  · exact ⟨congrArg (· + len) h.read, h.write, h.size, h.written⟩

lemma Alike.findCrlf (h : Alike b b') : b.findCrlf = b'.findCrlf := by
  rw [BufferBase.findCrlf, BufferBase.findCrlf, h.readableView, h.readable]

lemma take_overwrite_of_le {l : Bytes} {pos : ℕ} (hpos : pos ≤ l.length) :
    (overwrite l pos src).take pos = l.take pos := by
  rw [overwrite, List.append_assoc, List.take_append_of_le_length, List.take_take, Nat.min_self]
  rw [List.length_take]
  omega

lemma take_overwrite {l : Bytes} {pos : ℕ} (hpos : pos ≤ l.length) :
    (overwrite l pos src).take (pos + src.length) = l.take pos ++ src := by
  have hlen : (l.take pos ++ src).length = pos + src.length := by
    rw [List.length_append, List.length_take, Nat.min_eq_left hpos]
  rw [overwrite, ← hlen, List.take_left]

lemma Alike.storeAtBack (h : Alike b b') (hb : b.InRange) :
    Alike (b.storeAtBack src) (b'.storeAtBack src) where
  read := h.read
  write := h.write
  size := by
    have hsize := h.size
    simp only [BufferBase.size, BufferBase.storeAtBack, overwrite, List.length_append,
      List.length_take, List.length_drop, h.write] at hsize ⊢
    omega
  written := by
    simp only [BufferBase.storeAtBack]
    rw [take_overwrite_of_le hb.2, take_overwrite_of_le (h.inRange hb).2, h.written]

lemma Alike.store (h : Alike b b') (hb : b.InRange) :
    Alike ((b.storeAtBack src).hasWritten src.length)
      ((b'.storeAtBack src).hasWritten src.length) where
  read := h.read
  write := congrArg (· + src.length) h.write
  size := (h.storeAtBack hb).size
  written := by
    simp only [BufferBase.storeAtBack, BufferBase.hasWritten]
    rw [take_overwrite hb.2, take_overwrite (h.inRange hb).2, h.written]

lemma Alike.sameFront (h : Alike b b') (hb : b.InRange) : SameFront b b' where
  inRange := hb
  inRange' := h.inRange hb
  readable := h.readable
  size := h.size
  front := by
    have hle : b.readable ≤ b.indexWrite := Nat.sub_le _ _
    have hle' : b'.readable ≤ b'.indexWrite := Nat.sub_le _ _
    have hw := congrArg (List.take b.readable) h.written
    rw [List.take_take, List.take_take, Nat.min_eq_left hle, h.readable,
      Nat.min_eq_left hle'] at hw
    rw [h.readable, hw]

lemma size_makeRoom (hb : b.InRange) (want : ℕ) :
    (FlexBuffer.makeRoom b want).size
      = if b.size - b.readable < want then b.readable + want else b.size := by
  obtain ⟨-, hw, hc⟩ := FlexBuffer.compact_spec hb
  have hsize : (FlexBuffer.compact b).size = b.size := congrArg List.length hc
  simp only [FlexBuffer.makeRoom, BufferBase.writable, hw, hsize]
  by_cases hlt : b.size - b.readable < want
  · rw [if_pos hlt, if_pos hlt]
    exact FlexBuffer.length_resize _ _
  · rw [if_neg hlt, if_neg hlt, hsize]

lemma SameFront.makeRoom (h : SameFront b b') (want : ℕ) :
    Alike (FlexBuffer.makeRoom b want) (FlexBuffer.makeRoom b' want) where
  read := by rw [FlexBuffer.makeRoom_indexRead h.inRange, FlexBuffer.makeRoom_indexRead h.inRange']
  write := by
    rw [FlexBuffer.makeRoom_indexWrite h.inRange, FlexBuffer.makeRoom_indexWrite h.inRange',
      h.readable]
  size := by rw [size_makeRoom h.inRange, size_makeRoom h.inRange', h.size, h.readable]
  written := by
    obtain ⟨extra, hc⟩ := FlexBuffer.makeRoom_container h.inRange want
    obtain ⟨extra', hc'⟩ := FlexBuffer.makeRoom_container h.inRange' want
    have hle := h.inRange.read_add_readable_le
    have hle' := h.inRange'.read_add_readable_le
    rw [FlexBuffer.makeRoom_indexWrite h.inRange, FlexBuffer.makeRoom_indexWrite h.inRange', hc,
      hc', List.take_append_of_le_length (by omega), List.take_append_of_le_length (by omega),
      h.front]

end Alike

/-! ## Calls on them -/

section Calls

/-- The same context and the same results, with buffers that behave alike. -/
structure ParsingAlike (p q : Parsing) : Prop where
  inRange : p.buffer.InRange
  buffer : Alike p.buffer q.buffer
  context : p.context = q.context
  ok : p.ok = q.ok
  hasMore : p.hasMore = q.hasMore

lemma inRange_hasRead_findCrlf {b : BufferBase} (hb : b.InRange) {found : ℕ}
    (h : b.findCrlf = some found) : (b.hasRead (found + 2)).InRange := by
  have hle : found + 2 ≤ b.readableView.length := (firstEnd_of_find .crlfLine hb h).1
  rw [length_readableView hb] at hle
  exact hb.hasRead hle

lemma ParsingAlike.pass {p q : Parsing} (h : ParsingAlike p q) :
    ParsingAlike (parsePass p) (parsePass q) := by
  obtain ⟨c, b, ok, more⟩ := p
  obtain ⟨c', b', ok', more'⟩ := q
  obtain ⟨hin, hbuf, hctx, hok, hmore⟩ := h
  dsimp only at hin hbuf hctx hok hmore
  subst hctx hok hmore
  simp only [parsePass, ← hbuf.findCrlf, ← hbuf.readableView]
  cases hs : c.state with
  | expectRequestLine =>
    cases hc : b.findCrlf with
    | none => exact ⟨hin, hbuf, rfl, rfl, rfl⟩
    | some found =>
      dsimp only
      split
      · exact ⟨inRange_hasRead_findCrlf hin hc, hbuf.hasRead, rfl, rfl, rfl⟩
      · exact ⟨hin, hbuf, rfl, rfl, rfl⟩
  | expectHeaders =>
    cases hc : b.findCrlf with
    | none => exact ⟨hin, hbuf, rfl, rfl, rfl⟩
    | some found =>
      dsimp only
      split
      · exact ⟨inRange_hasRead_findCrlf hin hc, hbuf.hasRead, rfl, rfl, rfl⟩
      · exact ⟨inRange_hasRead_findCrlf hin hc, hbuf.hasRead, rfl, rfl, rfl⟩
  | expectBody => exact ⟨hin, hbuf, rfl, rfl, rfl⟩
  | gotAll => exact ⟨hin, hbuf, rfl, rfl, rfl⟩

lemma ParsingAlike.loop : ∀ (fuel : ℕ) {p q : Parsing}, ParsingAlike p q →
    Option.Rel ParsingAlike (parseLoop fuel p) (parseLoop fuel q)
  | 0, p, q, h => by
      rw [parseLoop, parseLoop, ← h.hasMore]
      split
      · exact .none
      · exact .some h
  | fuel + 1, p, q, h => by
      rw [parseLoop, parseLoop, ← h.hasMore]
      split
      · exact h.pass.loop fuel
      · exact .some h

lemma Alike.parseRequest {b b' : BufferBase} (h : Alike b b') (hb : b.InRange) (c : HttpContext) :
    Option.Rel ParsingAlike (parseRequest (enough b) c b) (parseRequest (enough b') c b') := by
  rw [enough, enough, ← h.readable]
  exact ParsingAlike.loop _ ⟨hb, h, rfl, rfl, rfl⟩

end Calls

/-! ## Connections -/

section Connections

/-- Connections that no further event can tell apart. -/
structure Indistinct (c d : Connection) : Prop where
  context : c.context = d.context
  buffer : SameFront c.buffer d.buffer
  sent : c.sent = d.sent
  status : c.status = d.status

lemma Indistinct.answerTurn {c d : Connection} (h : Indistinct c d) {p q : Parsing}
    (hpq : ParsingAlike p q) (a : FileAnswers) :
    Indistinct (answerTurn c p a) (answerTurn d q a) := by
  have hbuf := hpq.buffer.sameFront hpq.inRange
  simp only [Http.answerTurn, ← hpq.ok, ← hpq.context, ← h.sent]
  split
  · split
    · exact ⟨rfl, hbuf, rfl, rfl⟩
    · exact ⟨rfl, hbuf, rfl, h.status⟩
  · exact ⟨rfl, hbuf, rfl, rfl⟩

/-- What `read_some` leaves, once room has been made. -/
lemma SameFront.readSome {b b' : BufferBase} (h : SameFront b b') (e : Event)
    (hfit : e.recv.stored.length
      ≤ (FlexBuffer.makeRoom b readBufferAtLeastWritable).writable) :
    (readSome b e.recv).2 = (readSome b' e.recv).2 ∧
    Alike (readSome b e.recv).1 (readSome b' e.recv).1 ∧ (readSome b e.recv).1.InRange := by
  have hroom := h.makeRoom readBufferAtLeastWritable
  have hin := FlexBuffer.makeRoom_inRange h.inRange readBufferAtLeastWritable
  simp only [Coring.readSome]
  split
  · exact ⟨rfl, hroom.storeAtBack hin, hin.storeAtBack _⟩
  · split
    · exact ⟨rfl, hroom.storeAtBack hin, hin.storeAtBack _⟩
    · have hlen : e.recv.ret.toNat = e.recv.stored.length := by
        have := e.counted (by omega)
        omega
      rw [hlen]
      exact ⟨rfl, hroom.store hin, hin.store hfit⟩

lemma Indistinct.doHttp {c d : Connection} (h : Indistinct c d) (e : Event) :
    Option.Rel Indistinct (doHttp c e) (doHttp d e) := by
  have hroom := h.buffer.makeRoom readBufferAtLeastWritable
  have hwritable : (FlexBuffer.makeRoom c.buffer readBufferAtLeastWritable).writable
      = (FlexBuffer.makeRoom d.buffer readBufferAtLeastWritable).writable := by
    rw [BufferBase.writable, BufferBase.writable, hroom.size, hroom.write]
  simp only [Http.doHttp, ← h.status, ← hwritable, ← h.context]
  split
  · next hguard =>
    obtain ⟨hret, halike, hin⟩ := h.buffer.readSome e hguard.2
    rcases hc : readSome c.buffer e.recv with ⟨b, r⟩
    rcases hd : readSome d.buffer e.recv with ⟨b', r'⟩
    rw [hc, hd] at hret halike
    rw [hc] at hin
    dsimp only at hret halike hin
    subst hret
    cases r with
    | error code => exact .some ⟨rfl, halike.sameFront hin, h.sent, rfl⟩
    | ok n =>
      exact rel_map (halike.parseRequest hin c.context)
        fun p q hpq => h.answerTurn hpq e.answers
  · exact .none

end Connections

/-! ## Connections that receive -/

section Running

variable {c c' : Connection}

lemma Alike.refl (b : BufferBase) : Alike b b := ⟨rfl, rfl, rfl, rfl⟩

lemma SameFront.refl {b : BufferBase} (hb : b.InRange) : SameFront b b := ⟨hb, hb, rfl, rfl, rfl⟩

lemma inRange_of_parseRequest {b : BufferBase} (hb : b.InRange) {c : HttpContext} {p : Parsing}
    (h : parseRequest (enough b) c b = some p) : p.buffer.InRange := by
  have hrel := (Alike.refl b).parseRequest hb c
  rw [h] at hrel
  cases hrel with
  | some hpq => exact hpq.inRange

/-- Wherever a connection waits for a receive, its context knows nothing. -/
structure Ready (c : Connection) : Prop where
  inRange : c.buffer.InRange
  context : c.status = .running → c.context = {}

lemma ready_new : Ready {} := ⟨FlexBuffer.fresh_inRange bufferBlockSize, fun _ => rfl⟩

lemma ready_answer {p : Parsing} (hp : p.buffer.InRange) (a : FileAnswers) :
    Ready (answerTurn c p a) := by
  have hanswer : ∀ (d : Connection) (close : Bool) (s : Sent), d.buffer.InRange →
      Ready (d.answer close s) := fun d close s hd => by
    refine ⟨hd, fun hrunning => if_pos ?_⟩
    cases hout : s.outcome with
    | returned => rfl
    | _ =>
      simp only [Connection.answer, hout, SendOutcome.status] at hrunning
      cases hrunning
  simp only [answerTurn]
  split
  · split
    · exact hanswer _ _ _ hp
    · exact ⟨hp, fun _ => rfl⟩
  · exact hanswer _ _ _ hp

lemma Ready.doHttp {e : Event} (hc : Ready c) (h : doHttp c e = some c') : Ready c' := by
  simp only [Http.doHttp] at h
  split at h
  · next hguard =>
    obtain ⟨-, -, hin⟩ := (SameFront.refl hc.inRange).readSome e hguard.2
    rcases hread : readSome c.buffer e.recv with ⟨b, r⟩
    rw [hread] at h hin
    cases r with
    | error code =>
      cases h
      exact ⟨hin, fun hrunning => by cases hrunning⟩
    | ok n =>
      obtain ⟨p, hp, rfl⟩ := Option.map_eq_some_iff.mp h
      exact ready_answer (inRange_of_parseRequest hin hp) e.answers
  · cases h

lemma ready_of_run {es : List Event} (h : serving.run {} es = some c) : Ready c :=
  serving.run_invariant (fun _ _ _ hc hs => hc.doHttp hs) ready_new h

end Running

/-! ## A piece that is lost -/

section Lost

variable {c : Connection} {piece tail : Bytes}

/-- A buffer with the first `n` of its readable bytes, and no more. -/
def cut (b : BufferBase) (n : ℕ) : BufferBase := { b with indexWrite := b.indexRead + n }

lemma readable_cut (b : BufferBase) (n : ℕ) : (cut b n).readable = n := Nat.add_sub_cancel_left _ _

lemma inRange_cut {b : BufferBase} (hb : b.InRange) {n : ℕ} (hn : n ≤ b.readable) :
    (cut b n).InRange := by
  have hle := hb.read_add_readable_le
  exact ⟨Nat.le_add_right _ _, show b.indexRead + n ≤ b.size by
    rw [BufferBase.size]
    omega⟩

/-- **A piece that does not complete its request is lost**, in every run of a connection.  Whatever
is received afterwards, the connection sends and ends as if, of the bytes readable behind the
receive, only the first ones had been there, as many as the line has that is cut; none if they end
with a line. -/
theorem doHttp_forgets (before : List Event) (hbefore : serving.run {} before = some c)
    (hstatus : c.status = .running) (hne : piece ≠ [])
    (hfit : piece.length ≤ (FlexBuffer.makeRoom c.buffer readBufferAtLeastWritable).writable)
    (l : RequestLine) (fields : List Bytes)
    (hview : (FlexBuffer.append c.buffer readBufferAtLeastWritable piece).readableView
      = joined crlf (l.line :: fields) tail)
    (hlines : ∀ line ∈ l.line :: fields, Plain crlf line) (htail : Plain crlf tail)
    (hcolon : ∀ f ∈ fields, colon ∈ f) (a : FileAnswers) (es : List Event) :
    (serving.run c (.chunk piece a :: es)).map (fun c => (c.sent, c.status))
      = (serving.run
          { c with
            buffer := cut (FlexBuffer.append c.buffer readBufferAtLeastWritable piece)
              tail.length } es).map
        fun c => (c.sent, c.status) := by
  have hc := ready_of_run hbefore
  have hin := FlexBuffer.append_inRange hc.inRange hfit
  set received := FlexBuffer.append c.buffer readBufferAtLeastWritable piece
  have hlen : tail.length ≤ received.readable := by
    rw [← length_readableView hin, hview, joined, List.length_append]
    exact Nat.le_add_left _ _
  -- The call takes the lines, and the reset forgets them.
  obtain ⟨b, hrun, hb, -, hb'⟩ := parseRequest_joined expecting_new hin hview hlines htail
  rw [takeLines_head l hcolon] at hrun hb'
  have hturn : doHttp c (.chunk piece a) = some { c with context := {}, buffer := b } := by
    rw [doHttp_chunk_eq hne, if_pos ⟨hstatus, hfit⟩, hc.context hstatus]
    exact congrArg (Option.map fun p => answerTurn c p a) hrun
  have hcontainer : b.container = received.container := parseLoop_container hrun
  have hreadable : b.readable = tail.length := by
    rw [← length_readableView hb, hb', joined_nil]
  -- What the next call of `make_room` shows is the front of the container.
  have hbuffer : SameFront b (cut received tail.length) := {
    inRange := hb
    inRange' := inRange_cut hin hlen
    readable := hreadable.trans (readable_cut _ _).symm
    size := congrArg List.length hcontainer
    front := by rw [hreadable, readable_cut, hcontainer]; rfl }
  rw [Machine.run_cons, show serving.step c (.chunk piece a) = _ from hturn]
  exact map_eq_map_of_rel (serving.run_rel (fun c d e (h : Indistinct c d) => h.doHttp e) es
    ⟨(hc.context hstatus).symm, hbuffer, rfl, rfl⟩) fun c d h => by rw [h.sent, h.status]

/-- A request line, a header line and four bytes of the next one. -/
def cutPiece : Bytes := text "GET / HTTP/1.1\r\nA: b\r\nHost"

/-- What comes after it. -/
def behindCut : Event := .chunk (text "/bench HTTP/1.1\r\n\r\n") { sends := [50] }

/-- On a connection that has been kept, the first four bytes of the piece take the place of the last
four, and make a request of what comes next. -/
theorem doHttp_forgets_cutPiece :
    ∃ c, serving.run {} keptExchange.events = some c ∧
      (serving.run c [.chunk cutPiece {}, behindCut]).map (fun d => (d.sent, d.status))
        = some (keptExchange.answer.bytes ++ benchExchange.answer.bytes, .running) ∧
      (serving.run c [.chunk cutPiece {}, behindCut]).map (fun d => (d.sent, d.status))
        = (serving.run
            { c with
              buffer := cut (FlexBuffer.append c.buffer readBufferAtLeastWritable cutPiece) 4 }
            [behindCut]).map fun d => (d.sent, d.status) := by
  have hrun : (serving.run {} keptExchange.events).map (fun c =>
      (c.status, decide (cutPiece.length
          ≤ (FlexBuffer.makeRoom c.buffer readBufferAtLeastWritable).writable),
        (FlexBuffer.append c.buffer readBufferAtLeastWritable cutPiece).readableView))
      = some (.running, true, cutPiece) := by decide +kernel
  have hbehind : (serving.run {} (keptExchange.events ++ [.chunk cutPiece {}, behindCut])).map
      (fun d => (d.sent, d.status))
      = some (keptExchange.answer.bytes ++ benchExchange.answer.bytes, .running) := by
    decide +kernel
  obtain ⟨c, hc, heq⟩ := Option.map_eq_some_iff.mp hrun
  simp only [Prod.mk.injEq, decide_eq_true_eq] at heq
  obtain ⟨hstatus, hfit, hview⟩ := heq
  rw [Machine.run_append, hc, Option.bind_some] at hbehind
  refine ⟨c, hc, hbehind, doHttp_forgets keptExchange.events hc hstatus (by decide) hfit
    keptExchange.line [text "A: b"] (hview.trans ?_) (by decide) (show Plain crlf (text "Host") by
      decide) (by decide) {} [behindCut]⟩
  decide

end Lost

end Http

end Coring
