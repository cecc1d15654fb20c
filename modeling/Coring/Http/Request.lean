import Coring.Framework.SortedMap
import Coring.Framework.Records
import Coring.Buffer.Readers
import Mathlib.Data.List.DropRight
import Mathlib.Data.List.Lex

/-!
# The request parser of the web server

`examples/http1/http_request.hpp` and `examples/http1/http_context.hpp` read a request from a
`flex_buffer`: a request line, header lines up to the first line without a colon, and nothing
more.  A context keeps how far it is between two calls of `parseRequest`, so that a request may
arrive in pieces.

A `std::string` is a list of bytes here, and a pair of pointers into a line is the part of the
line between them.  A header map is a `SortedMap`; its keys are in the order of
`std::char_traits<char>`, which compares bytes without a sign.
-/

namespace Coring

instance instLinearOrderUInt8 : LinearOrder UInt8 where
  le_refl a := UInt8.le_refl a
  le_trans _ _ _ := UInt8.le_trans
  lt_iff_le_not_ge a b := by rw [UInt8.lt_iff_le_and_ne, ne_eq]; grind
  le_antisymm _ _ := UInt8.le_antisymm
  le_total a b := UInt8.le_total a b
  toDecidableLE := inferInstance

namespace Http

/-- The bytes of a string. -/
abbrev Bytes := List UInt8

/-- The bytes of a literal. -/
def text (s : String) : Bytes := s.toList.map Char.toUInt8

/-- `' '`. -/
def space : UInt8 := 32

/-- `':'`. -/
def colon : UInt8 := 58

/-- `'?'`. -/
def question : UInt8 := 63

/-- `isspace` in the C locale. -/
def isspace (c : UInt8) : Bool := c = 32 ∨ 9 ≤ c ∧ c ≤ 13

/-! ## Requests -/

inductive Method
  | invalid
  | get
  | post
  | head
  | put
  | delete
  deriving Repr, DecidableEq

inductive Version
  | unknown
  | http10
  | http11
  deriving Repr, DecidableEq

structure HttpRequest where
  method : Method := .invalid
  version : Version := .unknown
  path : Bytes := []
  query : Bytes := []
  headers : SortedMap Bytes Bytes := .empty
  deriving DecidableEq

namespace HttpRequest

variable (r : HttpRequest)

def setVersion (v : Version) : HttpRequest := { r with version := v }

/-- The method is set even if it is not one of the five. -/
def setMethod (m : Bytes) : Bool × HttpRequest :=
  let method : Method :=
    if m = text "GET" then .get
    else if m = text "POST" then .post
    else if m = text "HEAD" then .head
    else if m = text "PUT" then .put
    else if m = text "DELETE" then .delete
    else .invalid
  (method ≠ .invalid, { r with method })

def setPath (p : Bytes) : HttpRequest :=
  if p = text "/" then { r with path := text "public/index.html" }
  else { r with path := text "public" ++ p }

def setQuery (q : Bytes) : HttpRequest := { r with query := q }

/-- `addHeader(start, colon, end)`: the field is what stands before the colon, the value what
stands behind it without the spaces around it. -/
def addHeader (field value : Bytes) : HttpRequest :=
  { r with headers := r.headers.assign field ((value.dropWhile isspace).rdropWhile isspace) }

def getHeader (field : Bytes) : Bytes := (r.headers.find field).getD []

/-- `keepalive()`, which returns whether the connection is to be closed. -/
def keepalive : Bool :=
  let connection := r.getHeader (text "Connection")
  connection = text "close" ∨ r.version = .http10 ∧ connection ≠ text "Keep-Alive"

end HttpRequest

/-! ## Contexts -/

/-- `HttpRequestParseState`. -/
inductive ParseState
  | expectRequestLine
  | expectHeaders
  | expectBody
  | gotAll
  deriving Repr, DecidableEq

structure HttpContext where
  state : ParseState := .expectRequestLine
  request : HttpRequest := {}
  deriving DecidableEq

namespace HttpContext

/-- `processRequestLine(begin, end)`, with `line` what stands between the two.  What it has set
before it fails stays set. -/
def processRequestLine (r : HttpRequest) (line : Bytes) : Bool × HttpRequest :=
  let found := line.idxOf space
  if found ≠ line.length then
    let (valid, r) := r.setMethod (line.take found)
    if valid then
      let rest := line.drop (found + 1)
      let found := rest.idxOf space
      if found ≠ rest.length then
        let target := rest.take found
        let mark := target.idxOf question
        let r :=
          if mark ≠ target.length then (r.setPath (target.take mark)).setQuery (target.drop mark)
          else r.setPath target
        let last := rest.drop (found + 1)
        if last.length = 8 ∧ last.take 7 = text "HTTP/1." then
          if last.drop 7 = text "1" then (true, r.setVersion .http11)
          else if last.drop 7 = text "0" then (true, r.setVersion .http10)
          else (false, r)
        else (false, r)
      else (false, r)
    else (false, r)
  else (false, r)

def gotAll (c : HttpContext) : Bool := c.state = .gotAll

/-- `reset()`: the request is swapped with a new one. -/
def reset (_ : HttpContext) : HttpContext := {}

end HttpContext

/-! ## `parseRequest` -/

/-- The context, the buffer and the two local variables of `parseRequest`. -/
structure Parsing where
  context : HttpContext
  buffer : BufferBase
  ok : Bool := true
  hasMore : Bool := true
  deriving DecidableEq

open HttpContext in
/-- The body of the loop.  Nothing is done in the two states that expect no line, and the loop
goes on. -/
def parsePass (p : Parsing) : Parsing :=
  let c := p.context
  match c.state with
  | .expectRequestLine =>
      match p.buffer.findCrlf with
      | some crlf =>
          let (ok, request) := processRequestLine c.request (p.buffer.readableView.take crlf)
          if ok then
            { p with
              context := { state := .expectHeaders, request }
              buffer := p.buffer.hasRead (crlf + 2)
              ok }
          else { p with context := { c with request }, ok, hasMore := false }
      | none => { p with hasMore := false }
  | .expectHeaders =>
      match p.buffer.findCrlf with
      | some crlf =>
          let line := p.buffer.readableView.take crlf
          let found := line.idxOf colon
          if found ≠ line.length then
            { p with
              context :=
                { c with request := c.request.addHeader (line.take found) (line.drop (found + 1)) }
              buffer := p.buffer.hasRead (crlf + 2) }
          else
            { p with
              context := { c with state := .gotAll }
              buffer := p.buffer.hasRead (crlf + 2)
              hasMore := false }
      | none => { p with hasMore := false }
  | .expectBody | .gotAll => p

/-- At most `fuel` turns of the loop. -/
def parseLoop : ℕ → Parsing → Option Parsing
  | 0, p => if p.hasMore then none else some p
  | fuel + 1, p => if p.hasMore then parseLoop fuel (parsePass p) else some p

/-- `parseRequest(buf)`: the value returned is `ok`. -/
def parseRequest (fuel : ℕ) (c : HttpContext) (b : BufferBase) : Option Parsing :=
  parseLoop fuel { context := c, buffer := b }

end Http

end Coring
