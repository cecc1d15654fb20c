import Coring.Http.Request
import Coring.Framework.Machine

/-!
# What a block of lines does to a context

The buffer a call of `parseRequest` is given shows some complete lines and the beginning of one
more.  `takeLines` says what the lines do to the context, without the buffer: each is handed to
the request line or to the headers, until one is refused, one ends the request, or they run out.
The call does just that (`parseRequest_joined`), and takes from the buffer the lines it has used.

Two things follow.  A call returns if and only if the context expects a line
(`parseRequest_returns_iff`): on a context that has got a request already, `parseRequest` never
comes back.  And a request may be received in pieces, cut anywhere (`parse_in_pieces`).
-/

namespace Coring

namespace Http

open BufferBase HttpContext

/-- The context waits for a line of a request. -/
def HttpContext.Expecting (c : HttpContext) : Prop :=
  c.state = .expectRequestLine ∨ c.state = .expectHeaders

instance (c : HttpContext) : Decidable c.Expecting := inferInstanceAs (Decidable (_ ∨ _))

lemma expecting_new : ({} : HttpContext).Expecting := .inl rfl

/-- A header line with a colon in it. -/
def HttpRequest.addLine (r : HttpRequest) (line : Bytes) : HttpRequest :=
  r.addHeader (line.take (line.idxOf colon)) (line.drop (line.idxOf colon + 1))

/-- What has become of a block of lines. -/
structure Taken where
  ok : Bool
  context : HttpContext
  /-- The lines that were not used. -/
  rest : List Bytes
  deriving DecidableEq

/-- What lines do to a context. -/
def takeLines : HttpContext → List Bytes → Taken
  | c, [] => ⟨true, c, []⟩
  | c, line :: lines =>
      match c.state with
      | .expectRequestLine =>
          let out := processRequestLine c.request line
          if out.1 then takeLines ⟨.expectHeaders, out.2⟩ lines
          else ⟨false, { c with request := out.2 }, line :: lines⟩
      | .expectHeaders =>
          if colon ∈ line then takeLines { c with request := c.request.addLine line } lines
          else ⟨true, { c with state := .gotAll }, lines⟩
      | .expectBody | .gotAll => ⟨true, c, line :: lines⟩

/-! ## The lines in a buffer -/

lemma unbordered_crlf : Unbordered crlf := unbordered_pair (by decide)

lemma length_crlf : crlf.length = 2 := rfl

/-- An empty buffer starts at the front of its container. -/
def Drained (b : BufferBase) : Prop := b.readable = 0 → b.indexRead = 0

lemma drained_hasRead {b : BufferBase} (hb : b.InRange) {len : ℕ} (hlen : len ≤ b.readable) :
    Drained (b.hasRead len) := by
  intro h
  unfold BufferBase.hasRead at h ⊢
  split
  · rfl
  · next hne =>
    rw [if_neg hne] at h
    simp only [BufferBase.readable] at h hne hlen
    have := hb.1
    omega

section Line

variable {b : BufferBase} {line : Bytes} {lines : List Bytes} {tail : Bytes}

/-- The first line of a buffer, and the buffer once it has been read. -/
lemma first_line (hb : b.InRange) (hv : b.readableView = joined crlf (line :: lines) tail)
    (hline : Plain crlf line) :
    b.findCrlf = some line.length ∧ b.readableView.take line.length = line ∧
    (b.hasRead (line.length + 2)).InRange ∧ Drained (b.hasRead (line.length + 2)) ∧
    (b.hasRead (line.length + 2)).readableView = joined crlf lines tail := by
  have hsearch : search crlf b.readableView = line.length := by
    rw [hv, search_joined unbordered_crlf hline]
  have hsplit : b.readableView = line ++ (crlf ++ joined crlf lines tail) := by
    rw [hv, joined_cons, List.append_assoc]
  have hlen : line.length + 2 ≤ b.readable := by
    rw [← length_readableView hb, hsplit, List.length_append, List.length_append, length_crlf]
    omega
  refine ⟨?_, ?_, hb.hasRead hlen, drained_hasRead hb hlen, ?_⟩
  · rw [findCrlf_eq hb, hsearch, if_pos]
    rw [length_readableView hb]
    omega
  · rw [hsplit, List.take_left]
  · rw [readableView_hasRead, hsplit, ← List.drop_drop, List.drop_left]
    rw [← length_crlf, List.drop_left]

lemma no_line (hb : b.InRange) (htail : Plain crlf b.readableView) : b.findCrlf = none := by
  rw [findCrlf_eq hb, search_plain unbordered_crlf htail, if_neg (Nat.lt_irrefl _)]

end Line

/-! ## Runs of the loop -/

section Loop

variable {c : HttpContext} {b : BufferBase}

/-- The turns that are left when the loop has ended are not made. -/
lemma parseLoop_of_not_hasMore {p : Parsing} (h : p.hasMore = false) (fuel : ℕ) :
    parseLoop fuel p = some p := by
  cases fuel with
  | zero => rw [parseLoop, h, if_neg Bool.false_ne_true]
  | succ fuel => rw [parseLoop, h, if_neg Bool.false_ne_true]

lemma parseLoop_succ {p : Parsing} (h : p.hasMore = true) (fuel : ℕ) :
    parseLoop (fuel + 1) p = parseLoop fuel (parsePass p) := by
  rw [parseLoop, h, if_pos rfl]

/-- The loop over a block of lines: a turn for each that is used, and one for the end. -/
lemma parseLoop_joined {tail : Bytes} : ∀ {lines : List Bytes} {c : HttpContext}
    {b : BufferBase} {fuel : ℕ}, c.Expecting → b.InRange →
    b.readableView = joined crlf lines tail → (∀ line ∈ lines, Plain crlf line) →
    Plain crlf tail → lines.length < fuel →
    ∃ b', parseLoop fuel { context := c, buffer := b }
        = some ⟨(takeLines c lines).context, b', (takeLines c lines).ok, false⟩ ∧
      b'.InRange ∧ (Drained b → Drained b') ∧
      b'.readableView = joined crlf (takeLines c lines).rest tail
  | _, _, _, 0, _, _, _, _, _, hfuel => absurd hfuel (Nat.not_lt_zero _)
  | [], c, b, fuel + 1, hc, hb, hv, _, htail, _ => by
      have hnone : b.findCrlf = none := no_line hb (by rwa [hv])
      refine ⟨b, ?_, hb, id, hv⟩
      rw [parseLoop_succ rfl]
      rcases hc with hs | hs
      · simp only [parsePass, hs, hnone]
        exact parseLoop_of_not_hasMore rfl fuel
      · simp only [parsePass, hs, hnone]
        exact parseLoop_of_not_hasMore rfl fuel
  | line :: lines, c, b, fuel + 1, hc, hb, hv, hlines, htail, hfuel => by
      obtain ⟨hline, hlines⟩ := List.forall_mem_cons.mp hlines
      obtain ⟨hfind, htake, hb', hd', hv'⟩ := first_line hb hv hline
      have hfuel' : lines.length < fuel := Nat.lt_of_succ_lt_succ hfuel
      rw [parseLoop_succ rfl]
      rcases hc with hs | hs
      · by_cases hok : (processRequestLine c.request line).1 = true
        · obtain ⟨b', hrun, hin, hdr, hview⟩ := @parseLoop_joined tail lines
            ⟨.expectHeaders, (processRequestLine c.request line).2⟩ _ _ (.inr rfl) hb' hv'
            hlines htail hfuel'
          refine ⟨b', ?_, hin, fun _ => hdr hd', ?_⟩
          · simp only [parsePass, hs, hfind, htake, hok, if_true, takeLines]
            exact hrun
          · simp only [takeLines, hs, hok, if_true]
            exact hview
        · refine ⟨b, ?_, hb, id, ?_⟩
          · simp only [parsePass, hs, hfind, htake, hok, takeLines]
            exact parseLoop_of_not_hasMore rfl fuel
          · simp only [takeLines, hs, hok]
            exact hv
      · by_cases hcol : colon ∈ line
        · obtain ⟨b', hrun, hin, hdr, hview⟩ := @parseLoop_joined tail lines
            { c with request := c.request.addLine line } _ _ (.inr hs) hb' hv' hlines htail hfuel'
          have hidx : line.idxOf colon ≠ line.length := (List.idxOf_lt_length_iff.mpr hcol).ne
          refine ⟨b', ?_, hin, fun _ => hdr hd', ?_⟩
          · simp only [parsePass, hs, hfind, htake, takeLines, if_pos hcol]
            rw [if_pos hidx]
            rw [hs] at hrun
            exact hrun
          · simp only [takeLines, hs, if_pos hcol]
            rw [hs] at hview
            exact hview
        · refine ⟨_, ?_, hb', fun _ => hd', ?_⟩
          · simp only [parsePass, hs, hfind, htake, takeLines, if_neg hcol]
            rw [if_neg (not_not.mpr (List.idxOf_eq_length hcol))]
            exact parseLoop_of_not_hasMore rfl fuel
          · simp only [takeLines, hs, if_neg hcol]
            exact hv'

/-- With this many turns a call has an end. -/
def enough (b : BufferBase) : ℕ := b.readable + 1

lemma length_lt_enough {lines : List Bytes} {tail : Bytes} (hb : b.InRange)
    (hv : b.readableView = joined crlf lines tail) : lines.length < enough b := by
  have hlen : ∀ ls : List Bytes, ls.length ≤ (joined crlf ls tail).length := by
    intro ls
    induction ls with
    | nil => exact Nat.zero_le _
    | cons l ls ih =>
      rw [joined_cons, List.length_append, List.length_append, List.length_cons, length_crlf]
      omega
  have := hlen lines
  rw [← hv, length_readableView hb] at this
  exact Nat.lt_succ_of_le this

/-- **A call of `parseRequest`** uses the lines of the buffer as `takeLines` says, and leaves the
others there. -/
theorem parseRequest_joined {lines : List Bytes} {tail : Bytes} (hc : c.Expecting)
    (hb : b.InRange) (hv : b.readableView = joined crlf lines tail)
    (hlines : ∀ line ∈ lines, Plain crlf line) (htail : Plain crlf tail) :
    ∃ b', parseRequest (enough b) c b
        = some ⟨(takeLines c lines).context, b', (takeLines c lines).ok, false⟩ ∧
      b'.InRange ∧ (Drained b → Drained b') ∧
      b'.readableView = joined crlf (takeLines c lines).rest tail :=
  parseLoop_joined hc hb hv hlines htail (length_lt_enough hb hv)

lemma container_hasRead (b : BufferBase) (len : ℕ) : (b.hasRead len).container = b.container := by
  unfold BufferBase.hasRead
  split <;> rfl

lemma parsePass_container (p : Parsing) : (parsePass p).buffer.container = p.buffer.container := by
  unfold parsePass
  dsimp only
  split
  · split
    · split
      · exact container_hasRead _ _
      · rfl
    · rfl
  · split
    · split
      · exact container_hasRead _ _
      · exact container_hasRead _ _
    · rfl
  · rfl
  · rfl

/-- A call moves the read index and nothing else. -/
lemma parseLoop_container : ∀ {fuel : ℕ} {p q : Parsing}, parseLoop fuel p = some q →
    q.buffer.container = p.buffer.container
  | 0, p, q, h => by
      rw [parseLoop] at h
      split at h
      · cases h
      · rw [← Option.some_inj.mp h]
  | fuel + 1, p, q, h => by
      rw [parseLoop] at h
      split at h
      · exact (parseLoop_container h).trans (parsePass_container p)
      · rw [← Option.some_inj.mp h]

/-- A call that finds no line leaves everything as it is. -/
lemma parseRequest_plain (hc : c.Expecting) (hb : b.InRange) (hplain : Plain crlf b.readableView) :
    parseRequest (enough b) c b = some ⟨c, b, true, false⟩ := by
  have hnone : b.findCrlf = none := no_line hb hplain
  rw [parseRequest, enough, parseLoop_succ rfl]
  rcases hc with hs | hs
  · simp only [parsePass, hs, hnone]
    exact parseLoop_of_not_hasMore rfl _
  · simp only [parsePass, hs, hnone]
    exact parseLoop_of_not_hasMore rfl _

end Loop

/-! ## What is used of a block -/

section Taken

/-- The lines not used are the last ones. -/
lemma exists_used : ∀ (lines : List Bytes) (c : HttpContext),
    ∃ used, lines = used ++ (takeLines c lines).rest
  | [], _ => ⟨[], rfl⟩
  | line :: lines, c => by
      rw [takeLines]
      split
      · dsimp only
        split
        · obtain ⟨used, h⟩ := exists_used lines ⟨.expectHeaders, _⟩
          exact ⟨line :: used, congrArg (line :: ·) h⟩
        · exact ⟨[], rfl⟩
      · split
        · obtain ⟨used, h⟩ := exists_used lines _
          exact ⟨line :: used, congrArg (line :: ·) h⟩
        · exact ⟨[line], rfl⟩
      · exact ⟨[], rfl⟩
      · exact ⟨[], rfl⟩

lemma parseLoop_of_not_expecting {c : HttpContext} (hc : ¬ c.Expecting) (b : BufferBase) :
    ∀ fuel, parseLoop fuel { context := c, buffer := b } = none
  | 0 => rfl
  | fuel + 1 => by
      have hpass : parsePass { context := c, buffer := b } = { context := c, buffer := b } := by
        cases hs : c.state with
        | expectRequestLine => exact absurd (.inl hs) hc
        | expectHeaders => exact absurd (.inr hs) hc
        | expectBody => simp only [parsePass, hs]
        | gotAll => simp only [parsePass, hs]
      rw [parseLoop_succ rfl, hpass]
      exact parseLoop_of_not_expecting hc b fuel

/-- A buffer that holds these bytes and no others. -/
def holding (v : Bytes) : BufferBase := ⟨v, 0, v.length⟩

lemma inRange_holding (v : Bytes) : (holding v).InRange := ⟨Nat.zero_le _, Nat.le_refl _⟩

@[simp] lemma readableView_holding (v : Bytes) : (holding v).readableView = v := by
  simp [holding, BufferBase.readableView, BufferBase.readable, slice]

/-- **When `parseRequest` returns.**  A call on a context that waits for a line comes back, and
what it has taken from the buffer is a number of complete lines.  On one that has got all of a
request, or expects a body, no number of turns is enough. -/
theorem parseRequest_returns_iff (c : HttpContext) (b : BufferBase) (hb : b.InRange) :
    ((∃ fuel p, parseRequest fuel c b = some p) ↔ c.Expecting) ∧
    (c.Expecting → ∃ p used, parseRequest (enough b) c b = some p ∧ p.buffer.InRange ∧
      b.readableView = joined crlf used p.buffer.readableView) := by
  have hreturns : c.Expecting → ∃ p used, parseRequest (enough b) c b = some p ∧
      p.buffer.InRange ∧ b.readableView = joined crlf used p.buffer.readableView := by
    intro hc
    obtain ⟨lines, tail, hv, hlines, htail⟩ := exists_joined unbordered_crlf.1 b.readableView
    obtain ⟨b', hrun, hin, -, hview⟩ := parseRequest_joined hc hb hv hlines htail
    obtain ⟨used, hused⟩ := exists_used lines c
    refine ⟨_, used, hrun, hin, ?_⟩
    rw [hv, hview, ← joined_append, ← hused]
  refine ⟨⟨fun ⟨fuel, p, h⟩ => ?_, fun hc => ?_⟩, hreturns⟩
  · by_contra hc
    rw [parseRequest, parseLoop_of_not_expecting hc b fuel] at h
    cases h
  · obtain ⟨p, -, hrun, -⟩ := hreturns hc
    exact ⟨_, p, hrun⟩

/-- A context that has got a request, and a new one whose buffer has a line and a part of one. -/
theorem parseRequest_returns_iff_gotAll :
    (¬ ∃ fuel p, parseRequest fuel ⟨.gotAll, {}⟩ (holding (text "GET / HTTP/1.0\r\n")) = some p) ∧
    ∃ p used, parseRequest (enough (holding (text "GET / HTTP/1.0\r\nA: b"))) {}
        (holding (text "GET / HTTP/1.0\r\nA: b")) = some p ∧ p.buffer.readableView = text "A: b" ∧
      (holding (text "GET / HTTP/1.0\r\nA: b")).readableView
        = joined crlf used p.buffer.readableView := by
  obtain ⟨p, used, hrun, -, hused⟩ := (parseRequest_returns_iff {}
    (holding (text "GET / HTTP/1.0\r\nA: b")) (inRange_holding _)).2 expecting_new
  have hview : (parseRequest (enough (holding (text "GET / HTTP/1.0\r\nA: b"))) {}
      (holding (text "GET / HTTP/1.0\r\nA: b"))).map (·.buffer.readableView)
      = some (text "A: b") := by decide +kernel
  rw [hrun, Option.map_some, Option.some_inj] at hview
  refine ⟨fun hreturns => ?_, p, used, hrun, hview, hused⟩
  exact absurd ((parseRequest_returns_iff ⟨.gotAll, {}⟩ _ (inRange_holding _)).1.mp hreturns)
    (by decide)

/-- More lines go on where the first ones have stopped, unless these have ended or failed the
request. -/
lemma takeLines_append {ys : List Bytes} : ∀ {xs : List Bytes} {c : HttpContext},
    c.Expecting → (takeLines c xs).ok = true → (takeLines c xs).context.gotAll = false →
    (takeLines c xs).rest = [] ∧ (takeLines c xs).context.Expecting ∧
      takeLines c (xs ++ ys) = takeLines (takeLines c xs).context ys
  | [], c, hc, _, _ => ⟨rfl, hc, rfl⟩
  | x :: xs, c, hc, hok, hgot => by
      rw [List.cons_append]
      rcases hc with hs | hs
      · by_cases hx : (processRequestLine c.request x).1 = true
        · simp only [takeLines, hs, hx, if_true] at hok hgot ⊢
          exact takeLines_append (.inr rfl) hok hgot
        · simp only [takeLines, hs, hx] at hok
          exact absurd hok Bool.false_ne_true
      · by_cases hx : colon ∈ x
        · simp only [takeLines, hs, hx, if_true] at hok hgot ⊢
          exact takeLines_append (.inr rfl) hok hgot
        · simp only [takeLines, hs, hx, if_false, gotAll, decide_true] at hgot
          exact absurd hgot Bool.noConfusion

end Taken

/-! ## Requests in pieces -/

/-- A receive of one piece and the call of `parseRequest` after it, as long as the request is
neither complete nor refused.  The kernel stores at most `writable()` bytes. -/
def receive (p : Parsing) (piece : Bytes) : Option Parsing :=
  let room := FlexBuffer.makeRoom p.buffer readBufferAtLeastWritable
  if p.ok ∧ p.context.gotAll = false ∧ piece.length ≤ room.writable then
    let b := FlexBuffer.append p.buffer readBufferAtLeastWritable piece
    parseRequest (enough b) p.context b
  else none

def receiving : Machine Parsing Bytes := ⟨receive⟩

/-- Both have come to the same. -/
def Parsing.Agree (p q : Parsing) : Prop :=
  p.ok = q.ok ∧ p.context = q.context ∧ p.buffer.readableView = q.buffer.readableView

section Pieces

variable {c : HttpContext} {b : BufferBase}

/-- What a call comes to depends on the readable bytes alone. -/
lemma parseRequest_congr (hc : c.Expecting) (hb : b.InRange) {b' : BufferBase} (hb' : b'.InRange)
    (hv : b'.readableView = b.readableView) {p : Parsing}
    (hrun : parseRequest (enough b) c b = some p) :
    ∃ q, parseRequest (enough b') c b' = some q ∧ p.Agree q := by
  obtain ⟨lines, tail, hl, hlines, htail⟩ := exists_joined unbordered_crlf.1 b.readableView
  obtain ⟨b₁, hrun₁, -, -, hv₁⟩ := parseRequest_joined hc hb hl hlines htail
  obtain ⟨b₂, hrun₂, -, -, hv₂⟩ := parseRequest_joined hc hb' (hv.trans hl) hlines htail
  rw [hrun₁, Option.some_inj] at hrun
  exact ⟨_, hrun₂, by rw [← hrun], by rw [← hrun], by rw [← hrun, hv₁, hv₂]⟩

/-- A call that has neither refused nor completed the request is resumed by the next one. -/
lemma parseRequest_resume (hc : c.Expecting) (hb : b.InRange) {p : Parsing}
    (hrun : parseRequest (enough b) c b = some p) (hok : p.ok = true)
    (hgot : p.context.gotAll = false) :
    p.buffer.InRange ∧ p.context.Expecting ∧
    ∀ (t : Bytes) (later whole : BufferBase), later.InRange → whole.InRange →
      later.readableView = p.buffer.readableView ++ t →
      whole.readableView = b.readableView ++ t →
      ∃ q q', parseRequest (enough later) p.context later = some q ∧
        parseRequest (enough whole) c whole = some q' ∧ q.Agree q' := by
  obtain ⟨lines, tail, hl, hlines, htail⟩ := exists_joined unbordered_crlf.1 b.readableView
  obtain ⟨b₁, hrun₁, hin, -, hv₁⟩ := parseRequest_joined hc hb hl hlines htail
  rw [hrun₁, Option.some_inj] at hrun
  subst hrun
  obtain ⟨hrest, hexp, -⟩ := @takeLines_append [] lines c hc hok hgot
  refine ⟨hin, hexp, fun t later whole hlater hwhole hvl hvw => ?_⟩
  obtain ⟨ys, tail', ht, hys, htail'⟩ := exists_joined unbordered_crlf.1 (tail ++ t)
  have hvl' : later.readableView = joined crlf ys tail' := by
    rw [hvl, hv₁, hrest, joined_nil, ht]
  have hvw' : whole.readableView = joined crlf (lines ++ ys) tail' := by
    rw [hvw, hl, ← joined_append_tail, ht, joined_append]
  have hall : ∀ line ∈ lines ++ ys, Plain crlf line := fun line hmem =>
    (List.mem_append.mp hmem).elim (hlines line) (hys line)
  obtain ⟨b₂, hrun₂, -, -, hv₂⟩ := parseRequest_joined hexp hlater hvl' hys htail'
  obtain ⟨b₃, hrun₃, -, -, hv₃⟩ := parseRequest_joined hc hwhole hvw' hall htail'
  obtain ⟨-, -, happ⟩ := @takeLines_append ys lines c hc hok hgot
  refine ⟨_, _, hrun₂, hrun₃, ?_, ?_, ?_⟩
  · simp only [happ]
  · simp only [happ]
  · simp only [hv₂, hv₃, happ]

lemma receive_eq_some {p q : Parsing} {piece : Bytes} (h : receive p piece = some q) :
    p.ok = true ∧ p.context.gotAll = false ∧
      piece.length ≤ (FlexBuffer.makeRoom p.buffer readBufferAtLeastWritable).writable ∧
      parseRequest (enough (FlexBuffer.append p.buffer readBufferAtLeastWritable piece)) p.context
        (FlexBuffer.append p.buffer readBufferAtLeastWritable piece) = some q := by
  simp only [receive] at h
  split at h
  · next hguard => exact ⟨hguard.1, hguard.2.1, hguard.2.2, h⟩
  · cases h

lemma run_pieces : ∀ {pieces : List Bytes} {s p : Parsing}, pieces ≠ [] → s.context.Expecting →
    s.buffer.InRange → receiving.Each (fun s _ => s.buffer.Frontal) s pieces →
    receiving.run s pieces = some p → ∀ {whole : BufferBase}, whole.InRange →
    whole.readableView = s.buffer.readableView ++ pieces.flatten →
    ∃ q, parseRequest (enough whole) s.context whole = some q ∧ p.Agree q
  | [], _, _, hne, _, _, _, _, _, _, _ => absurd rfl hne
  | piece :: pieces, s, p, _, hc, hb, hfront, hrun, whole, hw, hview => by
      obtain ⟨s', hs', hrun'⟩ := receiving.run_cons_eq_some.mp hrun
      obtain ⟨-, -, hfit, hparse⟩ := receive_eq_some hs'
      obtain ⟨hfr, hfront'⟩ := hfront s' hs'
      have hb' := FlexBuffer.append_inRange hb hfit
      have hv' : (FlexBuffer.append s.buffer readBufferAtLeastWritable piece).readableView
          = s.buffer.readableView ++ piece := by
        rw [FlexBuffer.readableView_append hb, hfr]
      cases pieces with
      | nil =>
        rw [Machine.run_nil, Option.some_inj] at hrun'
        refine parseRequest_congr hc hb' hw ?_ (hrun' ▸ hparse)
        rw [hview, hv', List.flatten_singleton]
      | cons next pieces =>
        -- The next piece is received only if this call has left something to do.
        obtain ⟨t, ht, -⟩ := receiving.run_cons_eq_some.mp hrun'
        obtain ⟨hok, hgot, -⟩ := receive_eq_some ht
        obtain ⟨hin, hexp, hresume⟩ := parseRequest_resume hc hb' hparse hok hgot
        set later := holding (s'.buffer.readableView ++ (next :: pieces).flatten) with hlater
        have hvl : later.readableView = s'.buffer.readableView ++ (next :: pieces).flatten :=
          readableView_holding _
        obtain ⟨q, hq, hagree⟩ := run_pieces (List.cons_ne_nil _ _) hexp hin hfront' hrun'
          (inRange_holding _) hvl
        obtain ⟨q₁, q₂, hq₁, hq₂, hagree'⟩ := hresume (next :: pieces).flatten later whole
          (inRange_holding _) hw hvl (by rw [hview, hv', List.append_assoc, List.flatten_cons])
        rw [hq₁, Option.some_inj] at hq
        subst hq
        exact ⟨q₂, hq₂, hagree.1.trans hagree'.1, hagree.2.1.trans hagree'.2.1,
          hagree.2.2.trans hagree'.2.2⟩

/-- **A request may arrive in pieces.**  As long as every receive finds the readable bytes at the
front of the container, so that `make_room` keeps them, the calls made after the receives come to
what one call comes to that is given everything at once, wherever the pieces were cut. -/
theorem parse_in_pieces (hc : c.Expecting) (hb : b.InRange) {pieces : List Bytes} {p : Parsing}
    (hne : pieces ≠ [])
    (hfront : receiving.Each (fun s _ => s.buffer.Frontal) { context := c, buffer := b } pieces)
    (hrun : receiving.run { context := c, buffer := b } pieces = some p)
    {whole : BufferBase} (hw : whole.InRange)
    (hview : whole.readableView = b.readableView ++ pieces.flatten) :
    ∃ q, parseRequest (enough whole) c whole = some q ∧ p.Agree q :=
  run_pieces hne hc hb hfront hrun hw hview

end Pieces

/-- A request cut inside its request line, behind it, and inside its empty line. -/
theorem parse_in_pieces_cut :
    ∃ p q, receiving.run { context := {}, buffer := FlexBuffer.fresh 64 }
        [text "GET / HT", text "TP/1.0\r\n", text "\r", text "\n"] = some p ∧
      parseRequest (enough (holding (text "GET / HTTP/1.0\r\n\r\n"))) {}
        (holding (text "GET / HTTP/1.0\r\n\r\n")) = some q ∧ p.Agree q := by
  have hrun : ∃ p, receiving.run { context := {}, buffer := FlexBuffer.fresh 64 }
      [text "GET / HT", text "TP/1.0\r\n", text "\r", text "\n"] = some p :=
    Option.isSome_iff_exists.mp (by decide +kernel)
  obtain ⟨p, hp⟩ := hrun
  have hview : (holding (text "GET / HTTP/1.0\r\n\r\n")).readableView
      = (FlexBuffer.fresh 64).readableView
        ++ [text "GET / HT", text "TP/1.0\r\n", text "\r", text "\n"].flatten := by
    decide +kernel
  obtain ⟨q, hq, hagree⟩ := parse_in_pieces expecting_new (FlexBuffer.fresh_inRange 64)
    (List.cons_ne_nil _ _) (by decide +kernel) hp (inRange_holding _) hview
  exact ⟨p, q, hp, hq, hagree⟩

end Http

end Coring
