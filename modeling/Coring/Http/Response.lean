import Coring.Http.Grammar

/-!
# The responses of the web server

`examples/http1/http_response.hpp` collects a status and headers and writes them to a buffer.
The status line and the line `Connection` come first, the headers follow in the order of their
names, and an empty line ends the text.

The text is again one of lines.  Read by the parser of the requests, from the second line on, it
gives back the headers of the response (`appendToBuffer_read_back`), provided the headers are
such that they can be written in a line at all.
-/

namespace Coring

namespace Http

inductive HttpStatusCode
  | unknown
  | ok200
  | movedPermanently301
  | badRequest400
  | notFound404
  deriving Repr, DecidableEq

/-- The number of the enumerator. -/
def HttpStatusCode.value : HttpStatusCode → ℕ
  | .unknown => 0
  | .ok200 => 200
  | .movedPermanently301 => 301
  | .badRequest400 => 400
  | .notFound404 => 404

structure HttpResponse where
  headers : SortedMap Bytes Bytes := .empty
  statusCode : HttpStatusCode := .unknown
  statusMessage : Bytes := []
  closeConnection : Bool := false
  deriving DecidableEq

/-- `std::to_string`, and `fmt`'s `"{}"` on a number. -/
def decimal (n : ℕ) : Bytes := (Nat.toDigits 10 n).map Char.toUInt8

/-- The bytes of a string up to its first null byte. -/
def cString (s : Bytes) : Bytes := s.takeWhile (· ≠ 0)

/-- `tolower` in the C locale. -/
def tolower (c : UInt8) : UInt8 := if 65 ≤ c ∧ c ≤ 90 then c + 32 else c

/-- `'.'`. -/
def dot : UInt8 := 46

namespace HttpResponse

variable (res : HttpResponse)

/-- The message of a code; `kUnknown` leaves the one that is there. -/
def setStatusCode (code : HttpStatusCode) : HttpResponse :=
  let res := { res with statusCode := code }
  match code with
  | .unknown => res
  | .ok200 => { res with statusMessage := text "OK" }
  | .movedPermanently301 => { res with statusMessage := text "Move Permanently" }
  | .badRequest400 => { res with statusMessage := text "Bad Request" }
  | .notFound404 => { res with statusMessage := text "Not Found" }

def setCloseConnection (on : Bool) : HttpResponse := { res with closeConnection := on }

def addHeader (key value : Bytes) : HttpResponse :=
  { res with headers := res.headers.assign key value }

def setContentType (contentType : Bytes) : HttpResponse :=
  res.addHeader (text "Content-Type") contentType

def setContentLength (len : ℕ) : HttpResponse :=
  res.addHeader (text "Content-Length") (decimal len)

/-- `get_filename_ext`: what stands behind the last dot, unless it is the first character. -/
def getFilenameExt (filename : Bytes) : Bytes :=
  -- One more than the offset of the last dot.
  let behind := (filename.rdropWhile (· ≠ dot)).length
  if behind = 0 ∨ behind = 1 then [] else filename.drop behind

/-- The chain of `TRY_SET_CONTENT_TYPE`. -/
def contentTypes : List (Bytes × Bytes) :=
  [(text "jpeg", text "image/jpeg"), (text "png", text "image/png"),
    (text "jpg", text "image/jpeg"), (text "gif", text "image/gif"),
    (text "htm", text "text/html"), (text "html", text "text/html"),
    (text "js", text "application/javascript"), (text "css", text "text/css"),
    (text "txt", text "text/plain"), (text "mp4", text "video/mpeg4")]

/-- `setContentTypeByPath`; the path is copied into an array of 1024 characters, and a longer one
is written beyond its end. -/
def setContentTypeByPath (path : Bytes) : Option HttpResponse :=
  let smallCasePath := (cString path).map tolower
  if smallCasePath.length < 1024 then
    match contentTypes.lookup (getFilenameExt smallCasePath) with
    | some type => some (res.setContentType type)
    | none => some res
  else none

/-- What `appendToBuffer` formats. -/
def response : Bytes :=
  text "HTTP/1.0 " ++ decimal res.statusCode.value ++ space :: res.statusMessage ++ crlf
    ++ (if res.closeConnection then text "Connection: close\r\n"
      else text "Connection: Keep-Alive\r\n")
    ++ res.headers.entries.flatMap (fun header =>
      header.1 ++ text ": " ++ header.2 ++ crlf)
    ++ crlf

/-- `appendToBuffer(output)`: a `std::back_inserter` pushes one character after the other. -/
def appendToBuffer (output : BufferBase) : BufferBase :=
  res.response.foldl FlexBuffer.pushBackChar output

/-! ## Reading a response back -/

/-- The status and the headers can be written in lines. -/
structure Writable (res : HttpResponse) : Prop where
  message : Plain crlf res.statusMessage
  field : ∀ p ∈ res.headers.entries, colon ∉ p.1
  value : ∀ p ∈ res.headers.entries, Trimmed p.2
  line : ∀ p ∈ res.headers.entries, Plain crlf (fieldLine p)

def statusLine : Bytes :=
  text "HTTP/1.0 " ++ decimal res.statusCode.value ++ space :: res.statusMessage

/-- The header that `closeConnection_` becomes. -/
def connection : Bytes × Bytes :=
  (text "Connection", if res.closeConnection then text "close" else text "Keep-Alive")

/-- The lines behind the status line. -/
def headerLines : List Bytes := (res.connection :: res.headers.entries).map fieldLine ++ [[]]

lemma flatMap_headers (ps : List (Bytes × Bytes)) (tail : Bytes) :
    ps.flatMap (fun header => header.1 ++ text ": " ++ header.2 ++ crlf) ++ tail
      = joined crlf (ps.map fieldLine) tail := by
  have hline : ∀ p : Bytes × Bytes,
      p.1 ++ text ": " ++ p.2 ++ crlf = fieldLine p ++ crlf := fun p => by
    rw [fieldLine, show text ": " = [colon, space] from rfl]
    simp only [List.append_assoc, List.cons_append, List.nil_append]
  simp only [joined, List.flatMap_map, hline]

/-- The text of a response is one of lines. -/
lemma response_eq : res.response = joined crlf (res.statusLine :: res.headerLines) [] := by
  have hconn : (if res.closeConnection then text "Connection: close\r\n"
      else text "Connection: Keep-Alive\r\n") = fieldLine res.connection ++ crlf := by
    rw [connection]
    cases res.closeConnection <;> rfl
  rw [response, hconn, joined_cons, headerLines, joined_append, List.map_cons, joined_cons,
    ← flatMap_headers, statusLine]
  simp only [joined_cons, joined_nil, List.append_assoc, List.nil_append, List.append_nil,
    List.cons_append]

lemma plain_statusLine (h : Plain crlf res.statusMessage) : Plain crlf res.statusLine := by
  have hdigits : (13 : UInt8) ∉ decimal res.statusCode.value := by
    cases res.statusCode <;> decide
  rw [statusLine, ← List.singleton_append]
  refine Plain.append_left (Plain.append_left h (by decide)) ?_
  exact fun hm => (List.mem_append.mp hm).elim (by decide) hdigits

lemma plain_headerLines (h : res.Writable) : ∀ line ∈ res.headerLines, Plain crlf line := by
  intro line hmem
  rw [headerLines, List.map_cons, List.mem_append, List.mem_cons, List.mem_singleton,
    List.mem_map] at hmem
  obtain (rfl | ⟨p, hp, rfl⟩) | rfl := hmem
  · rw [connection]
    cases res.closeConnection <;> decide
  · exact h.line p hp
  · decide

/-- What the parser makes of the lines behind the status line. -/
lemma takeLines_headerLines (h : res.Writable) :
    takeLines ⟨.expectHeaders, {}⟩ res.headerLines = ⟨true, ⟨.gotAll,
      { headers := SortedMap.empty.assignAll (res.connection :: res.headers.entries) }⟩, []⟩ := by
  have hall : ∀ p ∈ res.connection :: res.headers.entries, colon ∉ p.1 ∧ Trimmed p.2 := by
    refine List.forall_mem_cons.mpr ⟨?_, fun p hp => ⟨h.field p hp, h.value p hp⟩⟩
    rw [connection]
    cases res.closeConnection <;> decide
  have hcolon : ∀ f ∈ (res.connection :: res.headers.entries).map fieldLine, colon ∈ f := by
    intro f hf
    obtain ⟨p, -, rfl⟩ := List.mem_map.mp hf
    exact List.mem_append_right _ List.mem_cons_self
  rw [headerLines, takeLines_fields List.not_mem_nil hcolon, foldl_addLine _ _ hall]

/-- Pushing characters one after the other appends them, if nothing has been read before. -/
lemma foldl_pushBackChar (cs : Bytes) : ∀ {b : BufferBase}, b.InRange → b.indexRead = 0 →
    (cs.foldl FlexBuffer.pushBackChar b).readableView = b.readableView ++ cs := by
  induction cs with
  | nil => exact fun _ _ => (List.append_nil _).symm
  | cons c cs ih =>
    intro b hb h0
    have hb' : (FlexBuffer.append b 1 [c]).InRange :=
      FlexBuffer.append_inRange hb (FlexBuffer.le_writable_makeRoom b 1)
    have h0' : (FlexBuffer.append b 1 [c]).indexRead = 0 := FlexBuffer.makeRoom_indexRead hb 1
    have hv : (FlexBuffer.append b 1 [c]).readableView = b.readableView ++ [c] := by
      rw [FlexBuffer.readableView_append hb, BufferBase.readableView, h0]
    calc ((c :: cs).foldl FlexBuffer.pushBackChar b).readableView
        = (cs.foldl FlexBuffer.pushBackChar (FlexBuffer.append b 1 [c])).readableView := rfl
      _ = (b.readableView ++ [c]) ++ cs := by rw [ih hb' h0', hv]
      _ = b.readableView ++ c :: cs := by rw [List.append_assoc, List.singleton_append]

lemma readableView_appendToBuffer {output : BufferBase} (hb : output.InRange)
    (h0 : output.indexRead = 0) :
    (res.appendToBuffer output).readableView
      = output.readableView ++ joined crlf (res.statusLine :: res.headerLines) [] := by
  rw [appendToBuffer, foldl_pushBackChar _ hb h0, response_eq]

/-- **A response is read back.**  The text written to a new buffer is a status line and what the
parser of the requests, expecting headers, takes completely; it then knows the headers of the
response, and `Connection` unless the response has set that itself. -/
theorem appendToBuffer_read_back (h : res.Writable) (initSize : ℕ) :
    ∃ behind, (res.appendToBuffer (FlexBuffer.fresh initSize)).readableView
        = res.statusLine ++ crlf ++ behind ∧ Plain crlf res.statusLine ∧
      ∀ b : BufferBase, b.InRange → b.readableView = behind →
        ∃ p, parseRequest (enough b) ⟨.expectHeaders, {}⟩ b = some p ∧ p.ok = true ∧
          p.context.gotAll = true ∧ p.buffer.readableView = [] ∧
          ∀ key, p.context.request.headers.find key = (res.headers.find key).or
            (if text "Connection" = key then some res.connection.2 else none) := by
  refine ⟨joined crlf res.headerLines [], ?_, res.plain_statusLine h.message, ?_⟩
  · have hempty : (FlexBuffer.fresh initSize).readableView = [] := by
      simp [FlexBuffer.fresh, BufferBase.readableView, BufferBase.readable, slice]
    rw [res.readableView_appendToBuffer (FlexBuffer.fresh_inRange initSize) rfl, hempty,
      List.nil_append, joined_cons]
  · intro b hb hv
    obtain ⟨b', hrun, -, -, hview⟩ := @parseRequest_joined ⟨.expectHeaders, {}⟩ b res.headerLines []
      (.inr rfl) hb hv (res.plain_headerLines h) (by decide)
    rw [res.takeLines_headerLines h] at hrun hview
    refine ⟨_, hrun, rfl, rfl, hview, fun key => ?_⟩
    have hassign : SortedMap.empty.assignAll (res.connection :: res.headers.entries)
        = (SortedMap.empty.assign res.connection.1 res.connection.2).assignAll
          res.headers.entries := rfl
    simp only [hassign]
    rw [SortedMap.find_assignAll res.headers.sorted, SortedMap.find_assign,
      SortedMap.find_empty, show res.connection.1 = text "Connection" from rfl]
    by_cases hk : text "Connection" = key
    · rw [if_pos hk, if_pos hk]
      rfl
    · rw [if_neg hk, if_neg hk]
      rfl

/-- The response to a request for a file. -/
def fileResponse : HttpResponse :=
  ({ closeConnection := true } : HttpResponse).setStatusCode .ok200 |>.setContentLength 7

theorem appendToBuffer_read_back_file :
    ∃ behind, (fileResponse.appendToBuffer (FlexBuffer.fresh 512)).readableView
        = text "HTTP/1.0 200 OK" ++ crlf ++ behind ∧
      ∀ b : BufferBase, b.InRange → b.readableView = behind →
        ∃ p, parseRequest (enough b) ⟨.expectHeaders, {}⟩ b = some p ∧ p.context.gotAll = true ∧
          p.buffer.readableView = [] ∧
          p.context.request.headers.find (text "Content-Length") = some (text "7") ∧
          p.context.request.headers.find (text "Connection") = some (text "close") := by
  obtain ⟨behind, hbehind, -, hread⟩ :=
    fileResponse.appendToBuffer_read_back ⟨by decide, by decide, by decide, by decide⟩ 512
  refine ⟨behind, hbehind, fun b hb hv => ?_⟩
  obtain ⟨p, hrun, -, hgot, hnil, hfind⟩ := hread b hb hv
  exact ⟨p, hrun, hgot, hnil, (hfind _).trans (by decide +kernel),
    (hfind _).trans (by decide +kernel)⟩

end HttpResponse

end Http

end Coring
