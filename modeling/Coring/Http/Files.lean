import Coring.Http.Sends

/-!
# Sending a file

`send_file` of `examples/http_server.cpp` answers a request with a file: it opens the path, asks
for the size, writes a header with this size in it and then the file, read block by block from
where the last read has stopped.

The kernel is the environment: what `openat` and `statx` say about the path, what each read brings,
and what each send returns.  What is sent is the beginning of a header a client can read, which
announces the length of the file, and of the file; it is all of both exactly when `send_file`
returns (`sendFile_sends`).
-/

namespace Coring

namespace Http

/-- What `openat` and `get_statx` say about a path. -/
inductive Opened
  /-- One of the two throws `bad_file`. -/
  | badFile
  | directory
  /-- `stx_size` of what is no directory. -/
  | file (size : ℕ)
  deriving Repr, DecidableEq

/-- What `pool->read` does. -/
inductive BlockRead
  /-- The bytes of the buffer it returns. -/
  | block (bytes : Bytes)
  /-- It throws `std::system_error`. -/
  | failed (code : ℤ)
  deriving Repr, DecidableEq

/-- The kernel's part of an answer. -/
structure FileAnswers where
  opened : Opened := .badFile
  reads : List BlockRead := []
  /-- The results of all its sends. -/
  sends : List ℤ := []
  deriving DecidableEq

/-- The loop over the file; the first argument is `total_size`, the second `sent_bytes`. -/
def sendBlocks (total : ℕ) : ℕ → List BlockRead → List ℤ → Sent
  | sent, [], ns => ⟨[], if sent < total then .reading else .returned, ns⟩
  | sent, r :: rs, ns =>
      if sent < total then
        match r with
        | .block bytes => (writeAll ns bytes).andThen (sendBlocks total (sent + bytes.length) rs)
        | .failed code => ⟨[], .threw (.systemError code), ns⟩
      else ⟨[], .returned, ns⟩

/-- `send_header`. -/
def sendHeader (res : HttpResponse) (ns : List ℤ) : Sent :=
  writeAll ns (res.appendToBuffer (FlexBuffer.fresh 512)).readableView

/-- `send_bad_request`. -/
def sendBadRequest (res : HttpResponse) (ns : List ℤ) : Sent :=
  sendHeader (res.setStatusCode .badRequest400) ns

/-- `send_file(conn, pool, res, path)`.  For a file that cannot be opened a status is set, and
nothing is sent; no other exception is caught. -/
def sendFile (res : HttpResponse) (path : Bytes) (a : FileAnswers) : Sent :=
  if path = text "public/bench" then sendHeader (res.setStatusCode .notFound404) a.sends
  else
    match a.opened with
    | .badFile => ⟨[], .returned, a.sends⟩
    | .directory => sendHeader (res.setStatusCode .notFound404) a.sends
    | .file size =>
        let res := res.setStatusCode .ok200
        if size > 0 then
          match res.setContentTypeByPath path with
          | none => ⟨[], .overrun, a.sends⟩
          | some res =>
              (sendHeader (res.setContentLength size) a.sends).andThen (sendBlocks size 0 a.reads)
        else sendHeader res a.sends

/-! ## The body -/

section Body

variable {total : ℕ} {rest : List BlockRead}

/-- The reads of a file go on with one that fails, or have not gone on. -/
def Stops (rest : List BlockRead) : Prop := rest = [] ∨ ∃ code more, rest = .failed code :: more

/-- Behind the blocks that have been read. -/
lemma sendBlocks_stops (hrest : Stops rest) {sent : ℕ} (hle : sent ≤ total) (ns : List ℤ) :
    Sends ns [] (sent = total) (sendBlocks total sent rest ns) := by
  have hstop : ∀ o, (o = .returned ↔ sent = total) → Sends ns [] (sent = total) ⟨[], o, ns⟩ :=
    fun o ho => {
      inOrder := List.nil_prefix
      returned := by simp [ho]
      complete := fun _ _ => rfl
      rest := List.suffix_refl ns }
  obtain rfl | ⟨code, more, rfl⟩ := hrest
  · rw [sendBlocks]
    refine hstop _ ?_
    by_cases hlt : sent < total
    · rw [if_pos hlt]
      simp [hlt.ne]
    · rw [if_neg hlt]
      simp only [true_iff]
      omega
  · rw [sendBlocks]
    split
    · next hlt => exact hstop _ (by simp [hlt.ne])
    · next hlt => exact hstop _ (by simp only [true_iff]; omega)

/-- Blocks that do not exceed the size are sent one behind the other, and the loop ends behind them
exactly if they are as long as the file. -/
lemma sendBlocks_blocks (hrest : Stops rest) : ∀ {blocks : List Bytes} {sent : ℕ} (ns : List ℤ),
    (∀ block ∈ blocks, block ≠ []) → sent + blocks.flatten.length ≤ total →
    Sends ns blocks.flatten (sent + blocks.flatten.length = total)
      (sendBlocks total sent (blocks.map .block ++ rest) ns)
  | [], sent, ns, _, hle => sendBlocks_stops hrest hle ns
  | block :: blocks, sent, ns, hne, hle => by
      obtain ⟨hblock, hblocks⟩ := List.forall_mem_cons.mp hne
      have hpos : 0 < block.length := List.length_pos_iff.mpr hblock
      rw [List.flatten_cons, List.length_append, ← Nat.add_assoc] at hle ⊢
      rw [List.map_cons, List.cons_append, sendBlocks, if_pos (by omega)]
      exact (writeAll_sends ns block).andThen (sendBlocks_blocks hrest _ hblocks hle)

end Body

/-! ## The header -/

namespace HttpResponse

lemma getFilenameExt_of_dot {stem ext : Bytes} (hstem : stem ≠ []) (hext : dot ∉ ext) :
    getFilenameExt (stem ++ dot :: ext) = ext := by
  have hcut : (stem ++ dot :: ext).rdropWhile (· ≠ dot) = stem ++ [dot] := by
    have hall : ∀ c ∈ ext.reverse, decide (c ≠ dot) = true := fun c hc =>
      decide_eq_true fun h => hext (h ▸ List.mem_reverse.mp hc)
    rw [List.rdropWhile, List.reverse_append, List.reverse_cons, List.append_assoc,
      List.dropWhile_append_of_pos hall, List.singleton_append,
      List.dropWhile_cons_of_neg (by simp), List.reverse_cons, List.reverse_reverse]
  have hpos : 0 < stem.length := List.length_pos_iff.mpr hstem
  have hlen : (stem ++ [dot]).length = stem.length + 1 := by
    rw [List.length_append, List.length_singleton]
  simp only [getFilenameExt, hcut, hlen]
  rw [if_neg (by omega), drop_cut]

lemma getFilenameExt_of_no_dot {filename : Bytes} (h : dot ∉ filename) :
    getFilenameExt filename = [] := by
  have hcut : filename.rdropWhile (· ≠ dot) = [] :=
    List.rdropWhile_eq_nil_iff.mpr fun c hc => decide_eq_true fun heq => h (heq ▸ hc)
  simp only [getFilenameExt, hcut]
  exact if_pos (.inl rfl)

/-- A header that can be written in a line may be added. -/
lemma writable_addHeader {res : HttpResponse} (h : res.Writable) {key value : Bytes}
    (hkey : colon ∉ key) (hvalue : Trimmed value) (hline : Plain crlf (fieldLine (key, value))) :
    (res.addHeader key value).Writable where
  message := h.message
  field p hp := by
    obtain rfl | hp := SortedMap.mem_assignEntry hp
    · exact hkey
    · exact h.field p hp
  value p hp := by
    obtain rfl | hp := SortedMap.mem_assignEntry hp
    · exact hvalue
    · exact h.value p hp
  line p hp := by
    obtain rfl | hp := SortedMap.mem_assignEntry hp
    · exact hline
    · exact h.line p hp

lemma digit_of_mem_decimal {n : ℕ} {c : UInt8} (h : c ∈ decimal n) : 48 ≤ c ∧ c ≤ 57 := by
  obtain ⟨ch, hch, rfl⟩ := List.mem_map.mp h
  have hdigit := Char.isDigit_iff_toNat.mp
    (Nat.isDigit_of_mem_toDigits (by decide) (by decide) hch)
  have h0 : '0'.toNat = 48 := rfl
  have h9 : '9'.toNat = 57 := rfl
  have hval : ch.toUInt8.toNat = ch.toNat % 256 := rfl
  rw [UInt8.le_iff_toNat_le, UInt8.le_iff_toNat_le, hval]
  refine ⟨?_, ?_⟩
  · show 48 ≤ _
    omega
  · show _ ≤ 57
    omega

/-- A text of digits has no spaces to lose, and does not end a line. -/
lemma trimmed_decimal (n : ℕ) : Trimmed (decimal n) := by
  have hno : ∀ c ∈ decimal n, ¬ isspace c = true := by
    intro c hc
    obtain ⟨hlo, hhi⟩ := digit_of_mem_decimal hc
    have h32 : c ≠ 32 := by
      rintro rfl
      exact absurd hlo (by decide)
    have h13 : ¬ c ≤ 13 := fun h => absurd (hlo.trans h) (by decide)
    simp [isspace, h32, h13]
  have hfront : (decimal n).dropWhile isspace = decimal n := by
    cases hd : decimal n with
    | nil => rfl
    | cons c cs =>
      rw [List.dropWhile_cons_of_neg]
      exact hno c (hd ▸ List.mem_cons_self)
  rw [Trimmed, hfront, List.rdropWhile_eq_self_iff]
  exact fun hne => hno _ (List.getLast_mem hne)

lemma plain_decimal (n : ℕ) : Plain crlf (decimal n) := by
  rintro ⟨s, t, hst⟩
  have hmem : (13 : UInt8) ∈ decimal n := by
    rw [← hst]
    exact List.mem_append_left _ (List.mem_append_right _ List.mem_cons_self)
  exact absurd (digit_of_mem_decimal hmem).1 (by decide)

lemma writable_setContentLength {res : HttpResponse} (h : res.Writable) (n : ℕ) :
    (res.setContentLength n).Writable := by
  refine writable_addHeader h (by decide) (trimmed_decimal n) ?_
  have hsplit : fieldLine (text "Content-Length", decimal n)
      = text "Content-Length: " ++ decimal n := rfl
  rw [hsplit]
  exact Plain.append_left (plain_decimal n) (by decide)

/-- Every type of the table can be written. -/
lemma writable_setContentType {res : HttpResponse} (h : res.Writable) {ext type : Bytes}
    (htype : contentTypes.lookup ext = some type) : (res.setContentType type).Writable := by
  have hall : ∀ p ∈ contentTypes, Trimmed p.2 ∧
      Plain crlf (fieldLine (text "Content-Type", p.2)) := by decide +kernel
  obtain ⟨front, back, hsplit, -⟩ := List.lookup_eq_some_iff.mp htype
  have hmem : (ext, type) ∈ contentTypes := by
    rw [hsplit]
    exact List.mem_append_right _ List.mem_cons_self
  exact writable_addHeader h (by decide) (hall _ hmem).1 (hall _ hmem).2

/-- What a path that fits into the array does to a response. -/
lemma setContentTypeByPath_spec {res : HttpResponse} (h : res.Writable) {path : Bytes}
    (hfit : (cString path).length < 1024) :
    ∃ typed, res.setContentTypeByPath path = some typed ∧ typed.Writable ∧
      typed.statusLine = res.statusLine ∧ typed.connection = res.connection ∧
      typed.headers.find (text "Content-Type")
        = (contentTypes.lookup (getFilenameExt ((cString path).map tolower))).or
          (res.headers.find (text "Content-Type")) := by
  simp only [setContentTypeByPath, List.length_map, if_pos hfit]
  cases htype : contentTypes.lookup (getFilenameExt ((cString path).map tolower)) with
  | none => exact ⟨res, rfl, h, rfl, rfl, (Option.none_or).symm⟩
  | some type =>
    refine ⟨_, rfl, writable_setContentType h htype, rfl, rfl, ?_⟩
    rw [setContentType, addHeader, SortedMap.find_assign, if_pos rfl, Option.some_or]

end HttpResponse

/-! ## The answer -/

section Answer

open HttpResponse

variable (close : Bool) (path content : Bytes) (blocks : List Bytes) (rest : List BlockRead)
  (ns : List ℤ)

/-- What `do_http` has `send_file` do with a file of this content, if the reads bring these blocks
and then the rest. -/
def sendContent : Sent :=
  sendFile (({} : HttpResponse).setCloseConnection close) path
    ⟨.file content.length, blocks.map .block ++ rest, ns⟩

variable {path content blocks rest}

/-- The header of a response. -/
lemma sendHeader_sends (res : HttpResponse) :
    Sends ns (joined crlf (res.statusLine :: res.headerLines) []) True (sendHeader res ns) := by
  have hempty : (FlexBuffer.fresh 512).readableView = [] := rfl
  rw [sendHeader, res.readableView_appendToBuffer (FlexBuffer.fresh_inRange 512) rfl, hempty,
    List.nil_append]
  exact writeAll_sends ns _

/-- **What a client receives of a file.**  While the reads bring the file block by block, what is
sent is in order, from its beginning on, a header that can be read, which announces the length of
the file and the type that goes with the ending of the path, and behind it the blocks read so far;
none of it is missing unless a send fails or is awaited.  `send_file` returns if and only if the
header and the whole file have been sent. -/
theorem sendFile_sends (hpath : path ≠ text "public/bench") (hfit : (cString path).length < 1024)
    (hcontent : content ≠ []) (hblocks : ∀ block ∈ blocks, block ≠ [])
    (hpre : blocks.flatten <+: content) (hrest : Stops rest) :
    ∃ res : HttpResponse, res.Writable ∧ res.statusLine = text "HTTP/1.0 200 OK" ∧
      res.connection.2 = (if close then text "close" else text "Keep-Alive") ∧
      res.headers.find (text "Content-Length") = some (decimal content.length) ∧
      res.headers.find (text "Content-Type")
        = contentTypes.lookup (getFilenameExt ((cString path).map tolower)) ∧
      (sendContent close path content blocks rest ns).bytes
        <+: joined crlf (res.statusLine :: res.headerLines) blocks.flatten ∧
      ((∀ n ∈ ns, 0 < n) → (sendContent close path content blocks rest ns).outcome ≠ .sending →
        (sendContent close path content blocks rest ns).bytes
          = joined crlf (res.statusLine :: res.headerLines) blocks.flatten) ∧
      ((sendContent close path content blocks rest ns).outcome = .returned ↔
        (sendContent close path content blocks rest ns).bytes
          = joined crlf (res.statusLine :: res.headerLines) content) := by
  set res₀ := (({} : HttpResponse).setCloseConnection close).setStatusCode .ok200 with hres₀
  have hwritable : res₀.Writable :=
    ⟨show Plain crlf (text "OK") by decide, fun p hp => absurd hp List.not_mem_nil,
      fun p hp => absurd hp List.not_mem_nil, fun p hp => absurd hp List.not_mem_nil⟩
  obtain ⟨typed, htyped, hw, hline, hconn, htype⟩ := setContentTypeByPath_spec hwritable hfit
  have hpos : content.length > 0 := List.length_pos_iff.mpr hcontent
  set res := typed.setContentLength content.length with hres
  have hout : sendContent close path content blocks rest ns
      = (sendHeader res ns).andThen
        (sendBlocks content.length 0 (blocks.map .block ++ rest)) := by
    simp only [sendContent, sendFile]
    rw [if_neg hpath, if_pos hpos, ← hres₀, htyped]
  have hsends : Sends ns (joined crlf (res.statusLine :: res.headerLines) blocks.flatten)
      (0 + blocks.flatten.length = content.length)
      (sendContent close path content blocks rest ns) := by
    rw [hout, ← List.nil_append blocks.flatten, joined_append_tail, List.nil_append]
    refine (sendHeader_sends ns res).andThen (sendBlocks_blocks hrest _ hblocks ?_)
    rw [Nat.zero_add]
    exact hpre.length_le
  have hok : text "HTTP/1.0 " ++ decimal 200 ++ space :: text "OK" = text "HTTP/1.0 200 OK" := by
    decide
  have hwhole : ∀ body, joined crlf (res.statusLine :: res.headerLines) body
      = joined crlf (res.statusLine :: res.headerLines) [] ++ body := fun body => by
    rw [← joined_append_tail, List.nil_append]
  refine ⟨res, writable_setContentLength hw _, hline.trans hok, congrArg Prod.snd hconn, ?_, ?_,
    hsends.inOrder, hsends.complete, hsends.returned.trans ⟨?_, fun hbytes => ?_⟩⟩
  · rw [hres, setContentLength, addHeader, SortedMap.find_assign, if_pos rfl]
  · rw [hres, setContentLength, addHeader, SortedMap.find_assign, if_neg (by decide), htype]
    exact Option.or_none
  · rintro ⟨hbytes, hlen⟩
    rw [hbytes, hpre.eq_of_length (by omega)]
  · -- No more than the blocks has been sent, so they are the content.
    have hprefix := hsends.inOrder
    rw [hbytes, hwhole content, hwhole blocks.flatten, List.prefix_append_right_inj] at hprefix
    have heq : blocks.flatten = content :=
      hpre.eq_of_length (Nat.le_antisymm hpre.length_le hprefix.length_le)
    rw [hbytes, heq]
    exact ⟨rfl, Nat.zero_add _⟩

/-- A style sheet of three bytes, of which a first read brings two.  Four sends bring the answer to
the client; if the last fails, it lacks a byte. -/
theorem sendFile_sends_css :
    (∃ res : HttpResponse, res.headers.find (text "Content-Type") = some (text "text/css") ∧
      (sendContent true (text "public/style.CSS") [1, 2, 3] [[1, 2], [3]] [] [10, 71, 2, 1]).bytes
        = joined crlf (res.statusLine :: res.headerLines) [1, 2, 3]) ∧
    (sendContent true (text "public/style.CSS") [1, 2, 3] [[1, 2], [3]] [] [10, 71, 2, 0]).outcome
      = .threw .eofError ∧
    ∃ res : HttpResponse,
      (sendContent true (text "public/style.CSS") [1, 2, 3] [[1, 2], [3]] [] [10, 71, 2, 0]).bytes
          <+: joined crlf (res.statusLine :: res.headerLines) [1, 2, 3] ∧
        (sendContent true (text "public/style.CSS") [1, 2, 3] [[1, 2], [3]] []
            [10, 71, 2, 0]).bytes ≠ joined crlf (res.statusLine :: res.headerLines) [1, 2, 3] := by
  have hthrew : (sendContent true (text "public/style.CSS") [1, 2, 3] [[1, 2], [3]] []
      [10, 71, 2, 0]).outcome = .threw .eofError := by decide +kernel
  obtain ⟨res, -, -, -, -, htype, -, -, hreturned⟩ := @sendFile_sends true
    (text "public/style.CSS") [1, 2, 3] [[1, 2], [3]] [] [10, 71, 2, 1] (by decide) (by decide)
    (by decide) (by decide) (by decide) (.inl rfl)
  obtain ⟨res', -, -, -, -, -, hinOrder, -, hreturned'⟩ := @sendFile_sends true
    (text "public/style.CSS") [1, 2, 3] [[1, 2], [3]] [] [10, 71, 2, 0] (by decide) (by decide)
    (by decide) (by decide) (by decide) (.inl rfl)
  refine ⟨⟨res, htype.trans (by decide +kernel), hreturned.mp (by decide +kernel)⟩, hthrew, res',
    hinOrder, fun hbytes => ?_⟩
  have hout := hreturned'.mpr hbytes
  rw [hthrew] at hout
  cases hout

end Answer

end Http

end Coring
