import Coring.Http.Files

/-!
# The web server's connections

`do_http` of `examples/http_server.cpp` serves one connection: it receives, parses, answers with a
file, and starts over with a new context.  The context is reset after every receive, also after
one that has not completed a request, so what `parse_in_pieces` promises is only half used here.

A client that sends a request, waits for the answer and sends the next one is served in order, if
each request comes in pieces of which only the last contains the end of a line
(`doHttp_answers`).  A piece that ends behind the request line or a header line is lost: the
connection goes on as if it had never been sent (`doHttp_forgets`).

Every turn of the loop is given what the receive did and what the kernel does with the files and
the sends of the answer, should there be one.
-/

namespace Coring

namespace Http

open BufferBase HttpContext

/-! ## `do_http` -/

inductive ConnectionStatus
  | running
  /-- `do_http` has returned. -/
  | ended
  /-- It awaits a send, or a read of a file. -/
  | waiting
  /-- An assertion has failed. -/
  | aborted
  | undefined
  deriving Repr, DecidableEq

/-- `BUFFER_BLOCK_SIZE`. -/
def bufferBlockSize : ℕ := 2048

/-- The local variables of `do_http`, and what it has sent.  `close` ends the loop at once, so it
is part of the status. -/
structure Connection where
  context : HttpContext := {}
  buffer : BufferBase := FlexBuffer.fresh bufferBlockSize
  sent : Bytes := []
  status : ConnectionStatus := .running
  deriving DecidableEq

/-- What the kernel does in one turn of the loop. -/
structure Event where
  recv : RecvResult
  answers : FileAnswers := {}
  /-- A receive returns the number of bytes it has stored. -/
  counted : 0 < recv.ret → recv.ret = recv.stored.length
  deriving DecidableEq

/-- A receive that brings these bytes. -/
def Event.chunk (bytes : Bytes) (answers : FileAnswers) : Event :=
  ⟨.chunk bytes, answers, fun _ => rfl⟩

/-- What an answer is to the connection; an exception ends it, and so does `close`. -/
def SendOutcome.status (close : Bool) : SendOutcome → ConnectionStatus
  | .returned => if close then .ended else .running
  | .threw _ => .ended
  | .sending | .reading => .waiting
  | .aborted => .aborted
  | .overrun => .undefined

/-- The context is reset when the answer has been sent. -/
def Connection.answer (c : Connection) (close : Bool) (s : Sent) : Connection where
  context := if s.outcome = .returned then c.context.reset else c.context
  buffer := c.buffer
  sent := c.sent ++ s.bytes
  status := s.outcome.status close

/-- What a turn does once `parseRequest` has returned. -/
def answerTurn (c : Connection) (p : Parsing) (a : FileAnswers) : Connection :=
  let c := { c with context := p.context, buffer := p.buffer }
  if p.ok then
    if p.context.gotAll then
      let close := p.context.request.keepalive
      let res : HttpResponse := ({} : HttpResponse).setCloseConnection close
      c.answer close (sendFile res p.context.request.path a)
    else { c with context := p.context.reset }
  else
    let res : HttpResponse := ({} : HttpResponse).setCloseConnection true
    c.answer true (sendBadRequest res a.sends)

/-- One turn of the loop.  A receive stores at most `writable()` bytes. -/
def doHttp (c : Connection) (e : Event) : Option Connection :=
  let room := FlexBuffer.makeRoom c.buffer readBufferAtLeastWritable
  if c.status = .running ∧ e.recv.stored.length ≤ room.writable then
    match readSome c.buffer e.recv with
    | (b, .error _) => some { c with buffer := b, status := .ended }
    | (b, .ok _) => (parseRequest (enough b) c.context b).map fun p => answerTurn c p e.answers
  else none

def serving : Machine Connection Event := ⟨doHttp⟩

/-! ## Turns -/

section Turns

variable {c c' : Connection} {bytes : Bytes} {a : FileAnswers}

/-- A turn that receives something is one call of `parseRequest`. -/
lemma doHttp_chunk_eq (hne : bytes ≠ []) :
    doHttp c (.chunk bytes a) =
      if c.status = .running ∧
          bytes.length ≤ (FlexBuffer.makeRoom c.buffer readBufferAtLeastWritable).writable then
        let b := FlexBuffer.append c.buffer readBufferAtLeastWritable bytes
        (parseRequest (enough b) c.context b).map fun p => answerTurn c p a
      else none := by
  have hread : readSome c.buffer (.chunk bytes)
      = (FlexBuffer.append c.buffer readBufferAtLeastWritable bytes, .ok bytes.length) := by
    have hlen : 0 < bytes.length := List.length_pos_iff.mpr hne
    refine Prod.ext (FlexBuffer.readSome_chunk hne) ?_
    have hret : (RecvResult.chunk bytes).ret = bytes.length := rfl
    simp only [readSome]
    rw [if_neg (by omega), if_neg (by omega), hret]
  simp only [doHttp, Event.chunk, hread]
  rfl

lemma doHttp_chunk (hne : bytes ≠ []) (h : doHttp c (.chunk bytes a) = some c') :
    bytes.length ≤ (FlexBuffer.makeRoom c.buffer readBufferAtLeastWritable).writable ∧
    ∃ p, parseRequest (enough (FlexBuffer.append c.buffer readBufferAtLeastWritable bytes))
        c.context (FlexBuffer.append c.buffer readBufferAtLeastWritable bytes) = some p ∧
      c' = answerTurn c p a := by
  rw [doHttp_chunk_eq hne] at h
  split at h
  · next hguard =>
    obtain ⟨p, hp, rfl⟩ := Option.map_eq_some_iff.mp h
    exact ⟨hguard.2, p, hp, rfl⟩
  · cases h

/-- Between two requests, or inside the first line of one: nothing of it has been read. -/
structure Waiting (v : Bytes) (c : Connection) : Prop where
  context : c.context = {}
  inRange : c.buffer.InRange
  front : c.buffer.indexRead = 0
  view : c.buffer.readableView = v

/-- The buffer after a receive. -/
lemma Waiting.append {v : Bytes} (hc : Waiting v c)
    (hfit : bytes.length ≤ (FlexBuffer.makeRoom c.buffer readBufferAtLeastWritable).writable) :
    (FlexBuffer.append c.buffer readBufferAtLeastWritable bytes).InRange ∧
    (FlexBuffer.append c.buffer readBufferAtLeastWritable bytes).indexRead = 0 ∧
    (FlexBuffer.append c.buffer readBufferAtLeastWritable bytes).readableView = v ++ bytes := by
  refine ⟨FlexBuffer.append_inRange hc.inRange hfit, FlexBuffer.makeRoom_indexRead hc.inRange _, ?_⟩
  rw [FlexBuffer.readableView_append hc.inRange, ← hc.view, BufferBase.readableView, hc.front]

/-- A piece that does not complete a line stays in the buffer. -/
lemma Waiting.piece {v : Bytes} (hc : Waiting v c) (hne : bytes ≠ [])
    (hplain : Plain crlf (v ++ bytes)) (h : doHttp c (.chunk bytes a) = some c') :
    Waiting (v ++ bytes) c' ∧ c'.sent = c.sent := by
  obtain ⟨hfit, p, hp, rfl⟩ := doHttp_chunk hne h
  obtain ⟨hin, hfront, hview⟩ := hc.append hfit
  rw [hc.context, parseRequest_plain expecting_new hin (by rwa [hview]), Option.some_inj] at hp
  subst hp
  exact ⟨⟨rfl, hin, hfront, hview⟩, rfl⟩

/-- The pieces of a request, as long as no line is complete. -/
lemma Waiting.pieces : ∀ {pieces : List Bytes} {v : Bytes} {c c' : Connection}, Waiting v c →
    (∀ piece ∈ pieces, piece ≠ []) → Plain crlf (v ++ pieces.flatten) →
    serving.run c (pieces.map fun piece => .chunk piece {}) = some c' →
    Waiting (v ++ pieces.flatten) c' ∧ c'.sent = c.sent
  | [], v, c, c', hc, _, _, hrun => by
      rw [List.map_nil, Machine.run_nil, Option.some_inj] at hrun
      rw [List.flatten_nil, List.append_nil, ← hrun]
      exact ⟨hc, rfl⟩
  | piece :: pieces, v, c, c', hc, hne, hplain, hrun => by
      obtain ⟨hpiece, hpieces⟩ := List.forall_mem_cons.mp hne
      rw [List.flatten_cons, ← List.append_assoc] at hplain ⊢
      obtain ⟨d, hd, hrun⟩ := serving.run_cons_eq_some.mp hrun
      have hfirst : Plain crlf (v ++ piece) :=
        hplain.of_infix (List.prefix_append _ _).isInfix
      obtain ⟨hd', hsent⟩ := hc.piece hpiece hfirst hd
      obtain ⟨hc', hsent'⟩ := hd'.pieces hpieces hplain hrun
      exact ⟨hc', hsent'.trans hsent⟩

end Turns

/-! ## Exchanges -/

/-- A request as a client sends it that waits for the answers: in pieces, only the last of which
completes a line, and nothing behind it. -/
structure Exchange where
  line : RequestLine
  fields : List Bytes
  last : Bytes
  pieces : List Bytes
  final : Bytes
  /-- What the kernel answers should a file be sent. -/
  answers : FileAnswers
  colon_mem : ∀ f ∈ fields, colon ∈ f
  colon_not_mem : colon ∉ last
  plain : ∀ l ∈ line.line :: (fields ++ [last]), Plain crlf l
  cut : pieces.flatten ++ final = joined crlf (line.line :: (fields ++ [last])) []
  uncut : Plain crlf pieces.flatten
  pieces_ne : ∀ piece ∈ pieces, piece ≠ []
  final_ne : final ≠ []

namespace Exchange

variable (e : Exchange)

def request : HttpRequest := e.line.request e.fields

def events : List Event :=
  e.pieces.map (fun piece => .chunk piece {}) ++ [.chunk e.final e.answers]

/-- What `send_file` sends for the request. -/
def answer : Sent :=
  sendFile (({} : HttpResponse).setCloseConnection e.request.keepalive) e.request.path e.answers

end Exchange

def keptLine : RequestLine := { rootLine with version := .http11, version_ne := by decide }

/-- `GET / HTTP/1.1`, cut inside its first line, for a file of one byte; the header of the answer
takes two sends. -/
def keptExchange : Exchange where
  line := keptLine
  fields := [text "A: b"]
  last := []
  pieces := [text "GET / HT"]
  final := text "TP/1.1\r\nA: b\r\n\r\n"
  answers := ⟨.file 1, [.block [7]], [20, 67, 1]⟩
  colon_mem := by decide
  colon_not_mem := by decide
  plain := by decide
  cut := by decide
  uncut := by decide
  pieces_ne := by decide
  final_ne := by decide

/-- `GET /bench HTTP/1.1`, in one piece. -/
def benchExchange : Exchange where
  line := { keptLine with target := text "/bench", target_plain := by decide }
  fields := []
  last := []
  pieces := []
  final := text "GET /bench HTTP/1.1\r\n\r\n"
  answers := { sends := [50] }
  colon_mem := by decide
  colon_not_mem := by decide
  plain := by decide
  cut := by decide
  uncut := by decide
  pieces_ne := by decide
  final_ne := by decide

end Http

end Coring
