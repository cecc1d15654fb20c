import Coring.Http.Lines

/-!
# The requests the parser takes

What `parseRequest` takes for a complete request is, line by line, a request line, any number of
lines with a colon in them, and one line without a colon, which the source calls the empty line
but does not require to be empty.  `gotAll_iff` says so in both directions, and which request
comes out: every text of this form is taken, everything taken is of this form, and the bytes
behind the last line stay in the buffer.

`RequestLine` is the first line with its parts.  A value of it can be written as exactly one text,
and `processRequestLine` reads this text back to the parts (`processRequestLine_line`).
-/

namespace Coring

namespace Http

open BufferBase HttpContext

/-! ## Request lines -/

/-- `methodString()`. -/
def Method.methodString : Method → Bytes
  | .get => text "GET"
  | .post => text "POST"
  | .head => text "HEAD"
  | .put => text "PUT"
  | .delete => text "DELETE"
  | .invalid => text "UNKNOWN"

/-- How a version is written in a request line. -/
def Version.versionText : Version → Bytes
  | .http10 => text "HTTP/1.0"
  | .http11 => text "HTTP/1.1"
  | .unknown => []

/-- The parts of a request line. -/
structure RequestLine where
  method : Method
  target : Bytes
  version : Version
  method_ne : method ≠ .invalid
  version_ne : version ≠ .unknown
  target_plain : space ∉ target

namespace RequestLine

variable (l : RequestLine)

/-- The line without its delimiter. -/
def line : Bytes :=
  l.method.methodString ++ space :: (l.target ++ space :: l.version.versionText)

/-- What the line sets in a request. -/
def apply (r : HttpRequest) : HttpRequest :=
  let r := { r with method := l.method }
  let r :=
    if question ∈ l.target then
      (r.setPath (l.target.take (l.target.idxOf question))).setQuery
        (l.target.drop (l.target.idxOf question))
    else r.setPath l.target
  r.setVersion l.version

end RequestLine

lemma space_not_mem_methodString {m : Method} (h : m ≠ .invalid) : space ∉ m.methodString := by
  cases m with
  | invalid => exact absurd rfl h
  | _ => decide

lemma setMethod_methodString (r : HttpRequest) {m : Method} (h : m ≠ .invalid) :
    r.setMethod m.methodString = (true, { r with method := m }) := by
  cases m with
  | invalid => exact absurd rfl h
  | _ => rfl

/-- Only the names of the five methods are taken. -/
lemma exists_of_setMethod {r : HttpRequest} {t : Bytes} (h : (r.setMethod t).1 = true) :
    ∃ m : Method, m ≠ .invalid ∧ t = m.methodString := by
  simp only [HttpRequest.setMethod, decide_eq_true_eq] at h
  split at h
  · next ht => exact ⟨.get, by decide, ht⟩
  · split at h
    · next ht => exact ⟨.post, by decide, ht⟩
    · split at h
      · next ht => exact ⟨.head, by decide, ht⟩
      · split at h
        · next ht => exact ⟨.put, by decide, ht⟩
        · split at h
          · next ht => exact ⟨.delete, by decide, ht⟩
          · exact absurd rfl h

/-- **A request line is read back to its parts.** -/
lemma processRequestLine_line (l : RequestLine) (r : HttpRequest) :
    processRequestLine r l.line = (true, l.apply r) := by
  have hm := space_not_mem_methodString l.method_ne
  have hspace : l.line.idxOf space ≠ l.line.length := idxOf_cut_ne hm
  have htake : l.line.take (l.line.idxOf space) = l.method.methodString := by
    rw [RequestLine.line, idxOf_cut hm, List.take_left]
  have hdrop : l.line.drop (l.line.idxOf space + 1)
      = l.target ++ space :: l.version.versionText := by
    rw [RequestLine.line, idxOf_cut hm, drop_cut]
  have hversion : (l.version = .http11 ∧ l.version.versionText = text "HTTP/1.1") ∨
      (l.version = .http10 ∧ l.version.versionText = text "HTTP/1.0") := by
    cases hv : l.version with
    | unknown => exact absurd hv l.version_ne
    | http10 => exact .inr ⟨rfl, rfl⟩
    | http11 => exact .inl ⟨rfl, rfl⟩
  have hmark : l.target.idxOf question ≠ l.target.length ↔ question ∈ l.target := by
    rw [ne_eq, List.idxOf_eq_length_iff, not_not]
  unfold processRequestLine
  simp only
  rw [if_pos hspace, htake, hdrop, setMethod_methodString r l.method_ne]
  simp only [if_true]
  rw [if_pos (idxOf_cut_ne l.target_plain), idxOf_cut l.target_plain, List.take_left, drop_cut]
  obtain ⟨hv, ht⟩ | ⟨hv, ht⟩ := hversion
  · rw [ht, if_pos (by decide), if_pos (by decide), RequestLine.apply, hv]
    simp only [hmark]
  · rw [ht, if_pos (by decide), if_neg (by decide), if_pos (by decide), RequestLine.apply, hv]
    simp only [hmark]

/-- **Nothing else is a request line.** -/
lemma exists_of_processRequestLine {r : HttpRequest} {line : Bytes}
    (h : (processRequestLine r line).1 = true) : ∃ l : RequestLine, line = l.line := by
  unfold processRequestLine at h
  simp only at h
  split at h
  · next hspace =>
    obtain ⟨hline, -⟩ := cut_at_idxOf hspace
    split at h
    · next hvalid =>
      obtain ⟨m, hm, hname⟩ := exists_of_setMethod hvalid
      set rest := line.drop (line.idxOf space + 1) with hrest
      split at h
      · next hspace' =>
        obtain ⟨hcut, htarget⟩ := cut_at_idxOf hspace'
        set last := rest.drop (rest.idxOf space + 1) with hlast
        have hparts : last.length = 8 ∧ last.take 7 = text "HTTP/1." →
            ∀ v : Version, v ≠ .unknown → last.take 7 ++ last.drop 7 = v.versionText →
            ∃ l : RequestLine, line = l.line := by
          intro _ v hv hsplit
          rw [List.take_append_drop] at hsplit
          refine ⟨⟨m, rest.take (rest.idxOf space), v, hm, hv, htarget⟩, ?_⟩
          rw [RequestLine.line]
          simp only
          rw [← hname, ← hsplit, ← hcut, ← hline]
        split at h
        · next h8 =>
          split at h
          · next h1 => exact hparts h8 .http11 (by decide) (by rw [h8.2, h1]; rfl)
          · split at h
            · next h0 => exact hparts h8 .http10 (by decide) (by rw [h8.2, h0]; rfl)
            · exact absurd h Bool.false_ne_true
        · exact absurd h Bool.false_ne_true
      · exact absurd h Bool.false_ne_true
    · exact absurd h Bool.false_ne_true
  · exact absurd h Bool.false_ne_true

/-! ## Requests -/

/-- The request of a request line and the header lines behind it. -/
def RequestLine.request (l : RequestLine) (fields : List Bytes) : HttpRequest :=
  fields.foldl HttpRequest.addLine (l.apply {})

/-- Header lines are added one after another. -/
lemma takeLines_fields {last : Bytes} {rest : List Bytes}
    (hlast : colon ∉ last) : ∀ {fields : List Bytes} {r : HttpRequest},
    (∀ f ∈ fields, colon ∈ f) →
    takeLines ⟨.expectHeaders, r⟩ (fields ++ last :: rest)
      = ⟨true, ⟨.gotAll, fields.foldl HttpRequest.addLine r⟩, rest⟩
  | [], r, _ => by simp only [List.nil_append, takeLines, if_neg hlast, List.foldl_nil]
  | f :: fields, r, hf => by
      obtain ⟨hcol, hf⟩ := List.forall_mem_cons.mp hf
      simp only [List.cons_append, takeLines, if_pos hcol, List.foldl_cons]
      exact takeLines_fields hlast hf

/-- A request line and header lines leave the context waiting for more of them. -/
lemma takeLines_head (l : RequestLine) {fields : List Bytes} (hf : ∀ f ∈ fields, colon ∈ f) :
    takeLines {} (l.line :: fields) = ⟨true, ⟨.expectHeaders, l.request fields⟩, []⟩ := by
  have hrest : ∀ {fields : List Bytes} {r : HttpRequest}, (∀ f ∈ fields, colon ∈ f) →
      takeLines ⟨.expectHeaders, r⟩ fields
        = ⟨true, ⟨.expectHeaders, fields.foldl HttpRequest.addLine r⟩, []⟩ := by
    intro fields
    induction fields with
    | nil => exact fun _ => rfl
    | cons f fields ih =>
      intro r hf
      obtain ⟨hcol, hf⟩ := List.forall_mem_cons.mp hf
      simp only [takeLines, if_pos hcol, List.foldl_cons]
      exact ih hf
  simp only [takeLines, processRequestLine_line, if_true]
  exact hrest hf

lemma exists_of_takeLines_headers {rest : List Bytes} {q : HttpRequest} :
    ∀ {lines : List Bytes} {r : HttpRequest},
    takeLines ⟨.expectHeaders, r⟩ lines = ⟨true, ⟨.gotAll, q⟩, rest⟩ →
    ∃ fields last, lines = fields ++ last :: rest ∧ (∀ f ∈ fields, colon ∈ f) ∧
      colon ∉ last ∧ q = fields.foldl HttpRequest.addLine r
  | [], r, h => by simp [takeLines] at h
  | line :: lines, r, h => by
      by_cases hcol : colon ∈ line
      · simp only [takeLines, if_pos hcol] at h
        obtain ⟨fields, last, hl, hf, hlast, hq⟩ := exists_of_takeLines_headers h
        exact ⟨line :: fields, last, congrArg (line :: ·) hl, List.forall_mem_cons.mpr ⟨hcol, hf⟩,
          hlast, hq⟩
      · simp only [takeLines, if_neg hcol, Taken.mk.injEq, HttpContext.mk.injEq, true_and] at h
        exact ⟨[], line, by rw [h.2]; rfl, fun _ hf => absurd hf List.not_mem_nil, hcol,
          h.1.symm⟩

lemma request_eq (l : RequestLine) (fields : List Bytes) (last : Bytes) (rest : List Bytes)
    (hf : ∀ f ∈ fields, colon ∈ f) (hlast : colon ∉ last) :
    takeLines {} (l.line :: (fields ++ last :: rest))
      = ⟨true, ⟨.gotAll, l.request fields⟩, rest⟩ := by
  simp only [takeLines, processRequestLine_line, if_true]
  exact takeLines_fields hlast hf

lemma exists_of_takeLines {lines rest : List Bytes} {q : HttpRequest}
    (h : takeLines {} lines = ⟨true, ⟨.gotAll, q⟩, rest⟩) :
    ∃ (l : RequestLine) (fields : List Bytes) (last : Bytes),
      lines = l.line :: (fields ++ last :: rest) ∧ (∀ f ∈ fields, colon ∈ f) ∧ colon ∉ last ∧
        q = l.request fields := by
  cases lines with
  | nil => simp [takeLines] at h
  | cons line lines =>
    by_cases hok : (processRequestLine {} line).1 = true
    · obtain ⟨l, rfl⟩ := exists_of_processRequestLine hok
      simp only [takeLines, processRequestLine_line, if_true] at h
      obtain ⟨fields, last, rfl, hf, hlast, hq⟩ := exists_of_takeLines_headers h
      exact ⟨l, fields, last, rfl, hf, hlast, hq⟩
    · simp [takeLines, hok] at h

/-- The text of a request is taken, and what is behind it stays readable. -/
lemma parse_text (l : RequestLine) {fields : List Bytes} {last behind : Bytes} {b : BufferBase}
    (hb : b.InRange) (hv : b.readableView = joined crlf (l.line :: (fields ++ [last])) behind)
    (hplain : ∀ line ∈ l.line :: (fields ++ [last]), Plain crlf line)
    (hf : ∀ f ∈ fields, colon ∈ f) (hlast : colon ∉ last) :
    ∃ p, parseRequest (enough b) {} b = some p ∧ p.ok = true ∧
      p.context = ⟨.gotAll, l.request fields⟩ ∧ p.buffer.readableView = behind := by
  obtain ⟨rest, tail, hrest, hrestplain, htail⟩ := exists_joined unbordered_crlf.1 behind
  have hlines : l.line :: (fields ++ last :: rest) = l.line :: (fields ++ [last]) ++ rest := by
    rw [List.cons_append, List.append_assoc]
    rfl
  have hv' : b.readableView = joined crlf (l.line :: (fields ++ last :: rest)) tail := by
    rw [hv, hlines, joined_append, hrest]
  have hall : ∀ line ∈ l.line :: (fields ++ last :: rest), Plain crlf line := by
    rw [hlines]
    exact fun line hmem => (List.mem_append.mp hmem).elim (hplain line) (hrestplain line)
  obtain ⟨b', hrun, -, -, hview⟩ := parseRequest_joined expecting_new hb hv' hall htail
  rw [request_eq l fields last rest hf hlast] at hrun hview
  exact ⟨_, hrun, rfl, rfl, hview.trans hrest.symm⟩

/-- **What is a complete request.**  A new context has got all of a request after a call of
`parseRequest` if and only if the buffer begins with a request line, lines with a colon and a line
without one; the request is the one these lines describe, and what is behind them stays
readable. -/
theorem gotAll_iff (b : BufferBase) (hb : b.InRange) (q : HttpRequest) (behind : Bytes) :
    (∃ p, parseRequest (enough b) {} b = some p ∧ p.ok = true ∧ p.context = ⟨.gotAll, q⟩ ∧
      p.buffer.readableView = behind) ↔
    ∃ (l : RequestLine) (fields : List Bytes) (last : Bytes),
      b.readableView = joined crlf (l.line :: (fields ++ [last])) behind ∧
      (∀ line ∈ l.line :: (fields ++ [last]), Plain crlf line) ∧
      (∀ f ∈ fields, colon ∈ f) ∧ colon ∉ last ∧ q = l.request fields := by
  constructor
  · rintro ⟨p, hrun, hok, hctx, hview⟩
    obtain ⟨lines, tail, hv, hlines, htail⟩ := exists_joined unbordered_crlf.1 b.readableView
    obtain ⟨b', hrun', -, -, hv'⟩ := parseRequest_joined expecting_new hb hv hlines htail
    rw [hrun', Option.some_inj] at hrun
    subst hrun
    have htaken : takeLines {} lines = ⟨true, ⟨.gotAll, q⟩, (takeLines {} lines).rest⟩ :=
      congrArg₂ (fun o c => (⟨o, c, (takeLines {} lines).rest⟩ : Taken)) hok hctx
    obtain ⟨l, fields, last, hl, hf, hlast, hq⟩ := exists_of_takeLines htaken
    have hsplit : lines = (l.line :: (fields ++ [last])) ++ (takeLines {} lines).rest := by
      rw [List.cons_append, List.append_assoc]
      exact hl
    refine ⟨l, fields, last, ?_, fun line hmem => hlines line ?_, hf, hlast, hq⟩
    · calc b.readableView
          = joined crlf lines tail := hv
        _ = joined crlf ((l.line :: (fields ++ [last])) ++ (takeLines {} lines).rest) tail :=
            congrArg (joined crlf · tail) hsplit
        _ = joined crlf (l.line :: (fields ++ [last])) behind := by
            rw [joined_append, ← hv', hview]
    · rw [hsplit]
      exact List.mem_append_left _ hmem
  · rintro ⟨l, fields, last, hv, hplain, hf, hlast, rfl⟩
    exact parse_text l hb hv hplain hf hlast

def rootLine : RequestLine := ⟨.get, text "/", .http10, by decide, by decide, by decide⟩

/-- A request with one header line, and the first byte of the next one behind it. -/
theorem gotAll_iff_root :
    ∃ p, parseRequest (enough (holding (text "GET / HTTP/1.0\r\nA: b\r\n\r\nG"))) {}
        (holding (text "GET / HTTP/1.0\r\nA: b\r\n\r\nG")) = some p ∧ p.ok = true ∧
      p.context = ⟨.gotAll, rootLine.request [text "A: b"]⟩ ∧
      p.buffer.readableView = text "G" :=
  (gotAll_iff _ (inRange_holding _) _ _).mpr
    ⟨rootLine, [text "A: b"], [], by decide +kernel, by decide, by decide, by decide, rfl⟩

/-! ## Header lines -/

section Fields

/-- A header as it is written: `"{}: {}"`. -/
def fieldLine (p : Bytes × Bytes) : Bytes := p.1 ++ colon :: space :: p.2

/-- A value that loses nothing when the spaces around it are removed. -/
def Trimmed (v : Bytes) : Prop := (v.dropWhile isspace).rdropWhile isspace = v

instance (v : Bytes) : Decidable (Trimmed v) := inferInstanceAs (Decidable (_ = _))

lemma addLine_fieldLine (r : HttpRequest) {p : Bytes × Bytes} (hk : colon ∉ p.1)
    (hv : Trimmed p.2) :
    r.addLine (fieldLine p) = { r with headers := r.headers.assign p.1 p.2 } := by
  have hvalue : ((space :: p.2).dropWhile isspace).rdropWhile isspace = p.2 := by
    rw [List.dropWhile_cons_of_pos (by decide)]
    exact hv
  rw [HttpRequest.addLine, fieldLine, idxOf_cut hk, List.take_left, drop_cut,
    HttpRequest.addHeader, hvalue]

/-- Headers that are written line by line are read back into the map. -/
lemma foldl_addLine (ps : List (Bytes × Bytes)) : ∀ (r : HttpRequest),
    (∀ p ∈ ps, colon ∉ p.1 ∧ Trimmed p.2) →
    (ps.map fieldLine).foldl HttpRequest.addLine r
      = { r with headers := r.headers.assignAll ps } := by
  induction ps with
  | nil => exact fun _ _ => rfl
  | cons p ps ih =>
    intro r h
    obtain ⟨⟨hk, hv⟩, hps⟩ := List.forall_mem_cons.mp h
    rw [List.map_cons, List.foldl_cons, addLine_fieldLine r hk hv, ih _ hps]
    rfl

lemma request_fields (l : RequestLine) {m : SortedMap Bytes Bytes}
    (hm : ∀ p ∈ m.entries, colon ∉ p.1 ∧ Trimmed p.2) :
    l.request (m.entries.map fieldLine) = { l.apply {} with headers := m } := by
  have hnone : (l.apply {}).headers = .empty := by
    simp only [RequestLine.apply, HttpRequest.setVersion]
    split
    · simp only [HttpRequest.setQuery, HttpRequest.setPath]
      split <;> rfl
    · simp only [HttpRequest.setPath]
      split <;> rfl
  rw [RequestLine.request, foldl_addLine _ _ hm, hnone, SortedMap.assignAll_entries]

lemma plain_line (l : RequestLine) (h : Plain crlf l.target) : Plain crlf l.line := by
  have hmethod : (13 : UInt8) ∉ l.method.methodString := by
    cases l.method <;> decide
  have hversion : (10 : UInt8) ∉ space :: l.version.versionText := by
    cases l.version <;> decide
  have htarget : Plain crlf (l.target ++ space :: l.version.versionText) :=
    Plain.append_right (show Plain ([13] ++ [10]) l.target from h) hversion
  rw [RequestLine.line, ← List.singleton_append, ← List.append_assoc]
  refine Plain.append_left htarget fun hmem => ?_
  exact (List.mem_append.mp hmem).elim hmethod (by decide)

/-- **A request is read back.**  A request line and a map of headers, written line by line, are
what a new context knows after a call of `parseRequest`; and the bytes behind the empty line stay
readable. -/
theorem parse_round_trip (l : RequestLine) (m : SortedMap Bytes Bytes)
    (hl : Plain crlf l.target)
    (hm : ∀ p ∈ m.entries, colon ∉ p.1 ∧ Trimmed p.2 ∧ Plain crlf (fieldLine p))
    (b : BufferBase) (hb : b.InRange) (behind : Bytes)
    (hv : b.readableView
      = joined crlf (l.line :: (m.entries.map fieldLine ++ [[]])) behind) :
    ∃ p, parseRequest (enough b) {} b = some p ∧ p.ok = true ∧
      p.context = ⟨.gotAll, { l.apply {} with headers := m }⟩ ∧
      p.buffer.readableView = behind := by
  have hplain : ∀ line ∈ m.entries.map fieldLine ++ [[]], Plain crlf line := by
    intro line hmem
    rw [List.mem_append, List.mem_map, List.mem_singleton] at hmem
    obtain ⟨p, hp, rfl⟩ | rfl := hmem
    · exact (hm p hp).2.2
    · decide
  have hcolon : ∀ f ∈ m.entries.map fieldLine, colon ∈ f := by
    intro f hf
    obtain ⟨p, -, rfl⟩ := List.mem_map.mp hf
    exact List.mem_append_right _ List.mem_cons_self
  have hlines : ∀ line ∈ l.line :: (m.entries.map fieldLine ++ [[]]), Plain crlf line :=
    List.forall_mem_cons.mpr ⟨plain_line l hl, hplain⟩
  obtain ⟨p, hrun, hok, hctx, hview⟩ :=
    parse_text l hb hv hlines hcolon List.not_mem_nil
  refine ⟨p, hrun, hok, ?_, hview⟩
  rw [hctx, request_fields l fun p hp => ⟨(hm p hp).1, (hm p hp).2.1⟩]

/-- A request with one header. -/
theorem parse_round_trip_root :
    ∃ p, parseRequest (enough (holding (text "GET / HTTP/1.0\r\nA: b\r\n\r\n"))) {}
        (holding (text "GET / HTTP/1.0\r\nA: b\r\n\r\n")) = some p ∧ p.ok = true ∧
      p.context = ⟨.gotAll,
        { rootLine.apply {} with headers := SortedMap.empty.assign (text "A") (text "b") }⟩ ∧
      p.buffer.readableView = [] :=
  parse_round_trip rootLine (SortedMap.empty.assign (text "A") (text "b")) (by decide) (by decide)
    _ (inRange_holding _) [] (by decide +kernel)

end Fields

end Http

end Coring
