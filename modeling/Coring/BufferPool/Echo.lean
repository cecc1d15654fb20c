import Coring.BufferPool.Exclusive
import Coring.Buffer.Writers

/-!
# A server on a buffer pool

The server of `examples/echo_server.cpp` sends back what it receives, and all of its connections
read into blocks of one pool.  `echo_loop` reads into whichever block the kernel selects, gives
what the block shows to `write_all`, and drops the block before it reads again.

Coroutines go from one suspension to the next without interruption; a connection is suspended on a
read or on a send, and the kernel's steps for it, which take bytes out of the block that is sent
or store bytes in the one that is selected, come at any time in between.

What one connection receives is never sent to another, although a block goes from hand to hand
(`echoLoop_sends_back`): everything that has been sent on a connection is the beginning of what was
received there, and a connection that waits for more has sent all of it.
-/

namespace Coring.Echo

open BufferPool (ReadState Clean Call)

/-! ## The server -/

/-- Where `echo_loop` is suspended. -/
inductive LoopPc
  /-- It awaits this call of `pool.read`. -/
  | reading (r : ℕ)
  /-- In `write_all`, for the resource of block `i`; its send is with the kernel, -/
  | sending (i : ℕ)
  /-- or is completed with this result. -/
  | sent (i : ℕ) (res : ℤ)
  | ended
  deriving Repr, DecidableEq

/-- A connection with its loop, and what its socket has delivered and taken so far. -/
structure Connection where
  pc : LoopPc
  received : List UInt8 := []
  sent : List UInt8 := []
  deriving Repr, DecidableEq

structure State where
  pool : BufferPool.State
  connections : List Connection := []
  /-- The assertion of `has_read` has failed. -/
  aborted : Bool := false

inductive Action
  /-- `event_loop` accepts a connection and spawns its loop, which calls `pool.read`. -/
  | accept
  /-- The kernel selects the `b`-th available buffer for the read of connection `j`. -/
  | select (j b : ℕ)
  /-- The kernel completes this read. -/
  | complete (j : ℕ) (res : ℤ) (bytes : List UInt8)
  /-- The kernel carries out the `b`-th of the requests that give buffers back. -/
  | provide (b : ℕ)
  /-- The coroutine of connection `j` is resumed with its read. -/
  | resumeRead (j : ℕ)
  /-- The kernel carries out the send of connection `j`. -/
  | send (j : ℕ) (res : ℤ)
  /-- The coroutine of connection `j` is resumed with its send. -/
  | resumeSend (j : ℕ)
  deriving Repr, DecidableEq

namespace State

variable (s : State)

/-- The loop of connection `j` has come to its next suspension. -/
def suspend (pool : BufferPool.State) (j : ℕ) (conn : Connection) : State :=
  { s with pool := pool, connections := s.connections.set j conn }

/-- The destructor of the resource of block `i`. -/
def destroy (pool : BufferPool.State) (i : ℕ) : Option BufferPool.State :=
  BufferPool.step pool (.drop (pool.resources.idxOf (some i)))

/-- The condition of the loop in `write_all`: another send, or the end of `read_buffer` and the
next read. -/
def writeAll (pool : BufferPool.State) (j : ℕ) (conn : Connection) (i : ℕ) : Option State := do
  let b ← pool.group.blocks[i]?
  if (b.base pool.memory).readable = 0 then do
    let pool ← destroy pool i
    let read ← BufferPool.step pool .startRead
    some (s.suspend read j { conn with pc := .reading pool.reads.length })
  else some (s.suspend pool j { conn with pc := .sending i })

end State

def liveStep (s : State) : Action → Option State
  | .accept => do
      let pool ← BufferPool.step s.pool .startRead
      some { s with
        pool := pool
        connections := s.connections ++ [{ pc := .reading s.pool.reads.length }] }
  | .select j b => do
      let conn ← s.connections[j]?
      match conn.pc with
      | .reading r => do
          let pool ← BufferPool.step s.pool (.select r b)
          some (s.suspend pool j conn)
      | _ => none
  | .complete j res bytes => do
      let conn ← s.connections[j]?
      match conn.pc with
      | .reading r => do
          let pool ← BufferPool.step s.pool (.complete r res bytes)
          some (s.suspend pool j
            { conn with received := conn.received ++ if 0 < res then bytes else [] })
      | _ => none
  | .provide b => do
      let pool ← BufferPool.step s.pool (.provide b)
      some { s with pool := pool }
  | .resumeRead j => do
      let conn ← s.connections[j]?
      match conn.pc with
      | .reading r => do
          let pool ← BufferPool.step s.pool (.resume r)
          match pool.reads[r]? with
          | some .returned => do
              let i ← (← pool.resources.getLast?)
              s.writeAll pool j conn i
          -- the exception is caught behind the loop
          | _ => some (s.suspend pool j { conn with pc := .ended })
      | _ => none
  | .send j res => do
      let conn ← s.connections[j]?
      match conn.pc with
      | .sending i => do
          let b ← s.pool.group.blocks[i]?
          if res ≤ (b.base s.pool.memory).readable then
            some (s.suspend s.pool j
              { conn with
                pc := .sent i res
                sent := conn.sent ++ (b.readableView s.pool.memory).take res.toNat })
          else none
      | _ => none
  | .resumeSend j => do
      let conn ← s.connections[j]?
      match conn.pc with
      | .sent i res =>
          if res = 0 ∨ res < 0 ∧ res ≠ -eIntr then do
            let pool ← State.destroy s.pool i
            some (s.suspend pool j { conn with pc := .ended })
          else if res < 0 then some { s with aborted := true }
          else do
            let pool ← BufferPool.step s.pool
              (.hasRead (s.pool.resources.idxOf (some i)) res.toNat)
            s.writeAll pool j conn i
      | _ => none

def step (s : State) (a : Action) : Option State := if s.aborted then none else liveStep s a

def serving : Machine State Action := ⟨step⟩

/-- Behind `provide_group_contiguous`, with the pool as it is then. -/
def start (pool : BufferPool.State) : State := { pool := pool }

/-! ## What a connection has for itself -/

/-- A call of `pool.read`, or a block. -/
inductive Hold
  | call (r : ℕ)
  | block (i : ℕ)
  deriving DecidableEq

def LoopPc.hold : LoopPc → Option Hold
  | .reading r => some (.call r)
  | .sending i | .sent i _ => some (.block i)
  | .ended => none

/-- A resource owns the block, and these bytes are readable in it. -/
structure Owns (p : BufferPool.State) (i : ℕ) (view : List UInt8) : Prop where
  owner : some i ∈ p.resources
  block : ∃ b, p.group.blocks[i]? = some b ∧ (b.base p.memory).InRange ∧
    b.readableView p.memory = view

def Held (p : BufferPool.State) : Hold → Prop
  | .call r => r < p.reads.length
  | .block i => ∃ view, Owns p i view

/-- What is held here is as it was. -/
def Same (p p' : BufferPool.State) : Hold → Prop
  | .call r => p'.reads[r]? = p.reads[r]?
  | .block i => ∀ view, Owns p i view → Owns p' i view

/-- What a read that is not over will show its coroutine. -/
def awaited : ReadState → Option (List UInt8)
  | .inFlight | .selected _ => some []
  | .completed res _ stored => some (if 0 < res then stored else [])
  | .returned | .threw _ => none

/-- What has been received is what has been sent and what is still to be sent. -/
def Serves (p : BufferPool.State) (conn : Connection) : Prop :=
  match conn.pc with
  | .reading r => ∃ x bytes, p.reads[r]? = some x ∧ awaited x = some bytes ∧
      conn.sent ++ bytes = conn.received
  | .sending i => ∃ view, Owns p i view ∧ conn.sent ++ view = conn.received
  | .sent i res => ∃ view, Owns p i view ∧ res ≤ view.length ∧
      conn.sent ++ view.drop res.toNat = conn.received
  | .ended => conn.sent <+: conn.received

section Hold

variable {p p' p'' : BufferPool.State} {conn : Connection} {i : ℕ} {view : List UInt8} {a : Hold}

lemma Owns.pos (h : Owns p i view) : 0 < BufferPool.owners p.resources i :=
  List.countP_pos_iff.mpr ⟨some i, h.owner, decide_eq_true rfl⟩

/-- A block is as it was if its indices and the bytes it shows are. -/
lemma Owns.frame (h : Owns p i view) (howner : some i ∈ p'.resources)
    (hblock : p'.group.blocks[i]? = p.group.blocks[i]?)
    (hload : ∀ b, p.group.blocks[i]? = some b →
      load p'.memory b.data b.size = load p.memory b.data b.size) : Owns p' i view := by
  obtain ⟨b, hb, hin, hview⟩ := h.block
  have hbase : b.base p'.memory = b.base p.memory := by
    rw [BufferPool.SelectedBuffer.base, hload b hb]
    rfl
  refine ⟨howner, b, hblock.trans hb, hbase ▸ hin, ?_⟩
  rw [BufferPool.SelectedBuffer.readableView, hbase]
  exact hview

lemma Same.held (h : Same p p' a) (ha : Held p a) : Held p' a := by
  cases a with
  | call r =>
    have hr : r < p.reads.length := ha
    have hsame : p'.reads[r]? = p.reads[r]? := h
    rw [List.getElem?_eq_getElem hr] at hsame
    exact (List.getElem?_eq_some_iff.mp hsame).1
  | block i =>
    obtain ⟨view, hview⟩ := ha
    exact ⟨view, h view hview⟩

lemma Same.trans (h : Same p p' a) (h' : Same p' p'' a) : Same p p'' a := by
  cases a with
  | call r => exact Eq.trans h' h
  | block i => exact fun view hview => h' view (h view hview)

lemma Serves.held (h : Serves p conn) (ha : conn.pc.hold = some a) : Held p a := by
  obtain ⟨pc, received, sent⟩ := conn
  cases pc with
  | reading r =>
    cases ha
    obtain ⟨x, -, hr, -⟩ := h
    exact (List.getElem?_eq_some_iff.mp hr).1
  | sending i =>
    cases ha
    obtain ⟨view, hview, -⟩ := h
    exact ⟨view, hview⟩
  | sent i res =>
    cases ha
    obtain ⟨view, hview, -⟩ := h
    exact ⟨view, hview⟩
  | ended => cases ha

lemma Serves.same (h : Serves p conn) (hsame : ∀ a, conn.pc.hold = some a → Same p p' a) :
    Serves p' conn := by
  obtain ⟨pc, received, sent⟩ := conn
  cases pc with
  | reading r =>
    obtain ⟨x, bytes, hr, hx⟩ := h
    have hread : p'.reads[r]? = p.reads[r]? := hsame _ rfl
    exact ⟨x, bytes, hread.trans hr, hx⟩
  | sending i =>
    obtain ⟨view, hview, hrest⟩ := h
    exact ⟨view, hsame _ rfl view hview, hrest⟩
  | sent i res =>
    obtain ⟨view, hview, hrest⟩ := h
    exact ⟨view, hsame _ rfl view hview, hrest⟩
  | ended => exact h

/-- What has been sent was received. -/
lemma Serves.sent_prefix (h : Serves p conn) : conn.sent <+: conn.received := by
  obtain ⟨pc, received, sent⟩ := conn
  cases pc with
  | reading r =>
    obtain ⟨x, bytes, -, -, hsent⟩ := h
    exact ⟨bytes, hsent⟩
  | sending i =>
    obtain ⟨view, -, hsent⟩ := h
    exact ⟨view, hsent⟩
  | sent i res =>
    obtain ⟨view, -, -, hsent⟩ := h
    exact ⟨_, hsent⟩
  | ended => exact h

end Hold

/-! ## The steps of the pool -/

section Pool

variable {c : Call} {p p' : BufferPool.State} {i r : ℕ} {view : List UInt8} {a : Hold}

/-- Another read is in the table. -/
lemma same_startRead (ha : Held p a) :
    Same p { p with reads := p.reads ++ [.inFlight] } a := by
  cases a with
  | call r => exact List.getElem?_append_left ha
  | block i => exact fun view h => h.frame h.owner rfl fun _ _ => rfl

/-- Only the reads of the pool have changed, and of these only one. -/
lemma same_setRead {x : ReadState} (hreads : p'.reads = p.reads.set r x)
    (hgroup : p'.group = p.group) (hresources : p'.resources = p.resources)
    (hmemory : p'.memory = p.memory) (hne : a ≠ .call r) : Same p p' a := by
  cases a with
  | call r' =>
    change p'.reads[r']? = p.reads[r']?
    rw [hreads, List.getElem?_set_ne fun heq => hne (congrArg Hold.call heq.symm)]
  | block i =>
    exact fun view h => h.frame (hresources ▸ h.owner) (by rw [hgroup]) fun b _ => by rw [hmemory]

lemma select_spec {b : ℕ} (h : BufferPool.step p (.select r b) = some p') :
    ∃ buf, p.reads[r]? = some .inFlight ∧ p'.reads[r]? = some (.selected buf) ∧
      ∀ a, a ≠ .call r → Same p p' a := by
  simp only [BufferPool.step] at h
  split at h
  · next buf hr hb =>
    obtain ⟨-, hp'⟩ := Option.ite_none_right_eq_some.mp h
    cases hp'
    exact ⟨buf, hr, List.getElem?_set_self (List.getElem?_eq_some_iff.mp hr).1,
      fun a ha => same_setRead rfl rfl rfl rfl ha⟩
  · cases h

/-- What the kernel stores for a read goes to a block that nobody owns. -/
lemma complete_spec (hC : Clean c p) {res : ℤ} {bytes : List UInt8}
    (h : BufferPool.step p (.complete r res bytes) = some p') :
    ∃ x flags stored, p.reads[r]? = some x ∧ awaited x = some [] ∧
      p'.reads[r]? = some (.completed res flags stored) ∧ (0 < res → stored = bytes) ∧
      ∀ a, a ≠ .call r → Same p p' a := by
  simp only [BufferPool.step] at h
  split at h
  · next hr =>
    obtain ⟨⟨hres, -⟩, hp'⟩ := Option.ite_none_right_eq_some.mp h
    cases hp'
    exact ⟨_, _, _, hr, rfl, List.getElem?_set_self (List.getElem?_eq_some_iff.mp hr).1,
      fun hpos => absurd hpos (Int.not_lt.mpr hres), fun a ha => same_setRead rfl rfl rfl rfl ha⟩
  · next buf hr =>
    obtain ⟨hmay, hp'⟩ := Option.ite_none_right_eq_some.mp h
    cases hp'
    refine ⟨_, _, _, hr, rfl, List.getElem?_set_self (List.getElem?_eq_some_iff.mp hr).1,
      fun _ => rfl, fun a ha => ?_⟩
    cases a with
    | call r' => exact List.getElem?_set_ne fun heq => ha (congrArg Hold.call heq.symm)
    | block i =>
      refine fun view hview => hview.frame hview.owner rfl fun b hb => ?_
      have hbuf : c.Known buf := hC.regular hr
      have hne : i ≠ buf.bid := by
        rintro rfl
        exact absurd (hC.no_owner hr (BufferPool.buffer_selected buf)) hview.pos.ne'
      have hblock := hC.blocks i b hb
      have hdata : b.data = c.base + i * c.n := congrArg BufferPool.SelectedBuffer.data hblock
      have hsize : b.size = c.n := congrArg BufferPool.SelectedBuffer.size hblock
      have hlen : bytes.length ≤ c.n := hbuf.len ▸ hmay.1
      refine load_store_of_disjoint p.memory ?_
      rw [hdata, hsize, hbuf.addr]
      rcases BufferPool.block_disjoint c.base (n := c.n) hne with hlo | hhi
      · exact .inl hlo
      · exact .inr (by omega)
  · cases h

/-- A completed read goes on: with an exception, or with a block that was nobody's and shows what
was stored. -/
lemma resume_spec (hC : Clean c p) {res : ℤ} {flags : ℕ} {stored : List UInt8}
    (hr : p.reads[r]? = some (.completed res flags stored)) :
    ∃ p', BufferPool.step p (.resume r) = some p' ∧
      p'.reads.length = p.reads.length ∧
      (∀ a, Held p a → a ≠ .call r → Same p p' a) ∧
      (res ≤ 0 ∧ p'.reads[r]? = some (.threw (-res)) ∨
        0 < res ∧ p'.reads[r]? = some .returned ∧
          ∃ i, p'.resources.getLast? = some (some i) ∧ ¬ Held p (.block i) ∧ Owns p' i stored) := by
  have hlt := (List.getElem?_eq_some_iff.mp hr).1
  by_cases hres : res ≤ 0
  · refine ⟨{ p with reads := p.reads.set r (.threw (-res)) }, ?_, List.length_set,
      fun a _ ha => same_setRead rfl rfl rfl rfl ha, .inl ⟨hres, List.getElem?_set_self hlt⟩⟩
    simp only [BufferPool.step, hr, BufferPool.afterRead, if_pos hres]
  have hpos := Int.not_le.mp hres
  have hnobody := hC.no_owner hr (hC.buffer_of_pos hr hpos)
  have hfree : ¬ Held p (.block (BufferPool.flagOf flags)) := fun hheld =>
    Exists.elim hheld fun _ hview => absurd hnobody hview.pos.ne'
  obtain ⟨-, hle⟩ | ⟨k, hk, hflags, hlen, hlength⟩ : _ ∨ _ := hC.regular hr
  · exact absurd hle hres
  have hn : 0 < c.n := by
    have := hlength hpos
    omega
  have hindex : BufferPool.flagOf flags < p.group.blocks.length := by
    rw [hC.length_eq hn, hflags, BufferPool.flagOf_cqeFlags]
    exact hk
  obtain ⟨b, hb⟩ : ∃ b, p.group.blocks[BufferPool.flagOf flags]? = some b :=
    ⟨_, List.getElem?_eq_getElem hindex⟩
  have hview := BufferPool.readableView_hasWritten hC hr hpos hb
  refine ⟨_, BufferPool.step_resume hr hpos hb, List.length_set, fun a hheld ha => ?_,
    .inr ⟨hpos, List.getElem?_set_self hlt, _, List.getLast?_concat, hfree, ?_⟩⟩
  · cases a with
    | call r' => exact List.getElem?_set_ne fun heq => ha (congrArg Hold.call heq.symm)
    | block i =>
      have hne : BufferPool.flagOf flags ≠ i := fun heq => hfree (heq ▸ hheld)
      exact fun view h => h.frame (List.mem_append_left _ h.owner) (List.getElem?_set_ne hne)
        fun _ _ => rfl
  · refine ⟨List.mem_append_right _ List.mem_cons_self, _, List.getElem?_set_self hindex, ?_,
      hview⟩
    have hidle := hC.idle _ b hb hnobody
    have htoNat : res.toNat ≤ c.n := by
      have := hlength hpos
      omega
    subst hidle
    refine ⟨Nat.zero_le _, ?_⟩
    change 0 + res.toNat ≤ (load p.memory _ c.n).length
    rw [length_load]
    omega

lemma completed_of_resume (h : BufferPool.step p (.resume r) = some p') :
    ∃ res flags stored, p.reads[r]? = some (.completed res flags stored) := by
  simp only [BufferPool.step] at h
  split at h
  · next res flags stored hr => exact ⟨res, flags, stored, hr⟩
  · cases h

/-- A block is given back. -/
lemma Owns.destroy (hC : Clean c p) (h : Owns p i view) :
    ∃ p', State.destroy p i = some p' ∧ Clean c p' ∧ p'.reads = p.reads ∧
      ∀ a, a ≠ .block i → Same p p' a := by
  obtain ⟨b, hb, -⟩ := h.block
  have hk : p.resources[p.resources.idxOf (some i)]? = some (some i) :=
    List.getElem?_idxOf h.owner
  have hstep : State.destroy p i = some { p.returnBlock i b with
      resources := p.resources.eraseIdx (p.resources.idxOf (some i)) } := by
    simp only [State.destroy, BufferPool.step, hk, hb]
  refine ⟨_, hstep, BufferPool.clean_step hC hstep, rfl, fun a ha => ?_⟩
  cases a with
  | call r => rfl
  | block i' =>
    have hne : i ≠ i' := fun heq => ha (congrArg Hold.block heq.symm)
    refine fun view h' => h'.frame ?_ (List.getElem?_set_ne hne) fun _ _ => rfl
    refine List.mem_eraseIdx_iff_getElem?.mpr ?_
    obtain ⟨k, hk'⟩ := List.getElem?_of_mem h'.owner
    refine ⟨k, ?_, hk'⟩
    rintro rfl
    rw [hk] at hk'
    cases hk'
    exact hne rfl

/-- New indices of a block, those of a buffer with its bytes. -/
lemma base_withIndices {b : BufferPool.SelectedBuffer} {mem : ℕ → UInt8} {d : BufferBase}
    (h : d.container = load mem b.data b.size) : (b.withIndices d).base mem = d := by
  obtain ⟨container, indexRead, indexWrite⟩ := d
  cases h
  rfl

/-- Bytes of a block have been sent. -/
lemma Owns.hasRead (hC : Clean c p) (h : Owns p i view) {len : ℕ} (hlen : len ≤ view.length) :
    ∃ p', BufferPool.step p (.hasRead (p.resources.idxOf (some i)) len) = some p' ∧
      Clean c p' ∧ p'.reads = p.reads ∧ Owns p' i (view.drop len) ∧
      ∀ a, a ≠ .block i → Same p p' a := by
  obtain ⟨b, hb, hin, hview⟩ := h.block
  have hk : p.resources[p.resources.idxOf (some i)]? = some (some i) :=
    List.getElem?_idxOf h.owner
  have hstep : BufferPool.step p (.hasRead (p.resources.idxOf (some i)) len)
      = some { p with group := p.group.setBlock i (b.hasRead p.memory len) } := by
    simp only [BufferPool.step, BufferPool.State.useBlock, hk, hb]
  have hbase : (b.hasRead p.memory len).base p.memory = (b.base p.memory).hasRead len := by
    refine base_withIndices ?_
    unfold BufferBase.hasRead
    split
    · rfl
    · rfl
  have hle : len ≤ (b.base p.memory).readable := by
    rwa [← BufferBase.length_readableView hin,
      show (b.base p.memory).readableView = view from hview]
  refine ⟨_, hstep, BufferPool.clean_step hC hstep, rfl,
    ⟨h.owner, _, List.getElem?_set_self (List.getElem?_eq_some_iff.mp hb).1, ?_, ?_⟩,
    fun a ha => ?_⟩
  · change ((b.hasRead p.memory len).base p.memory).InRange
    rw [hbase]
    exact hin.hasRead hle
  · change ((b.hasRead p.memory len).base p.memory).readableView = view.drop len
    rw [hbase, BufferBase.readableView_hasRead]
    exact congrArg (List.drop len) hview
  · cases a with
    | call r => rfl
    | block i' =>
      have hne : i ≠ i' := fun heq => ha (congrArg Hold.block heq.symm)
      exact fun view h' => h'.frame h'.owner (List.getElem?_set_ne hne) fun _ _ => rfl

lemma provide_spec {b : ℕ} (h : BufferPool.step p (.provide b) = some p') : Same p p' a := by
  simp only [BufferPool.step] at h
  split at h
  · cases h
    cases a with
    | call r => rfl
    | block i => exact fun view hview => hview.frame hview.owner rfl fun _ _ => rfl
  · cases h

/-- A loop with bytes in its block sends them; otherwise it gives the block back and reads. -/
lemma writeAll_spec (s : State) (j : ℕ) (hC : Clean c p) (h : Owns p i view) {conn : Connection}
    (hconn : conn.sent ++ view = conn.received) :
    ∃ p' conn', s.writeAll p j conn i = some (s.suspend p' j conn') ∧ Clean c p' ∧
      Serves p' conn' ∧
      (∀ a, conn'.pc.hold = some a → a = .block i ∨ a = .call p.reads.length) ∧
      ∀ a, Held p a → a ≠ .block i → Same p p' a := by
  obtain ⟨b, hb, hin, hview⟩ := h.block
  have hlen : (b.base p.memory).readable = view.length := by
    rw [← BufferBase.length_readableView hin]
    exact congrArg List.length hview
  simp only [State.writeAll, hb, Option.bind_eq_bind, Option.bind_some, hlen]
  by_cases hnil : view.length = 0
  · obtain ⟨p₁, hp₁, hC₁, hreads, hsame⟩ := h.destroy hC
    have hread : BufferPool.step p₁ .startRead
        = some { p₁ with reads := p₁.reads ++ [.inFlight] } := rfl
    rw [if_pos hnil, hp₁, Option.bind_some, hread, Option.bind_some, hreads]
    refine ⟨_, _, rfl, hreads ▸ BufferPool.clean_step hC₁ hread, ?_, ?_, fun a ha hne => ?_⟩
    · rw [List.eq_nil_of_length_eq_zero hnil] at hconn
      exact ⟨.inFlight, [], List.getElem?_concat_length, rfl, hconn⟩
    · rintro a ⟨⟩
      exact .inr rfl
    · have hfirst := hsame a hne
      exact hfirst.trans (hreads ▸ same_startRead (hfirst.held ha))
  · rw [if_neg hnil]
    refine ⟨_, _, rfl, hC, ⟨view, h, hconn⟩, ?_, fun a ha _ => ?_⟩
    · rintro a ⟨⟩
      exact .inl rfl
    · cases a with
      | call r => rfl
      | block i => exact fun view hview => hview

end Pool

/-! ## The invariant -/

structure Inv (c : Call) (s : State) : Prop where
  clean : Clean c s.pool
  serves : ∀ (j : ℕ) (conn : Connection), s.connections[j]? = some conn → Serves s.pool conn
  /-- No two connections have the same call or the same block. -/
  separate : ∀ (j k : ℕ) (conn conn' : Connection) (a : Hold), s.connections[j]? = some conn →
    s.connections[k]? = some conn' → conn.pc.hold = some a → conn'.pc.hold = some a → j = k
  aborted : s.aborted = true → ∃ conn ∈ s.connections, ∃ i, conn.pc = .sent i (-eIntr)

section Invariant

variable {c : Call} {s s' : State} {p' : BufferPool.State} {j k : ℕ} {conn conn' d : Connection}

lemma getElem?_suspend (h : (s.suspend p' j conn').connections[k]? = some d) :
    k = j ∧ d = conn' ∨ k ≠ j ∧ s.connections[k]? = some d := by
  by_cases hk : k = j
  · subst hk
    have hlt := (List.getElem?_eq_some_iff.mp h).1
    rw [State.suspend, List.length_set] at hlt
    rw [State.suspend, List.getElem?_set_self hlt, Option.some_inj] at h
    exact .inl ⟨rfl, h.symm⟩
  · rw [State.suspend, List.getElem?_set_ne (Ne.symm hk)] at h
    exact .inr ⟨hk, h⟩

/-- A connection moves on, with what it has had or what nobody has had. -/
lemma Inv.suspend (h : Inv c s) (hlive : s.aborted = false) (hj : s.connections[j]? = some conn)
    (hclean : Clean c p') (hserves : Serves p' conn')
    (hsame : ∀ a, Held s.pool a → conn.pc.hold ≠ some a → Same s.pool p' a)
    (hnew : ∀ a, conn'.pc.hold = some a → conn.pc.hold = some a ∨ ¬ Held s.pool a) :
    Inv c (s.suspend p' j conn') := by
  have hother : ∀ k d a, k ≠ j → s.connections[k]? = some d → d.pc.hold = some a →
      conn'.pc.hold ≠ some a := by
    intro k d a hk hd ha ha'
    obtain hown | hfree := hnew a ha'
    · exact hk (h.separate k j d conn a hd hj ha hown)
    · exact hfree ((h.serves k d hd).held ha)
  refine ⟨hclean, fun k d hk => ?_, fun k l d e a hk hl hd he => ?_, fun habort => ?_⟩
  · obtain ⟨rfl, rfl⟩ | ⟨hne, hd⟩ := getElem?_suspend hk
    · exact hserves
    · have hserved := h.serves k d hd
      exact hserved.same fun a ha => hsame a (hserved.held ha) fun hconn =>
        hne (h.separate k j d conn a hd hj ha hconn)
  · obtain ⟨rfl, rfl⟩ | ⟨hne, hdold⟩ := getElem?_suspend hk
    · obtain ⟨rfl, -⟩ | ⟨hl, heold⟩ := getElem?_suspend hl
      · rfl
      · exact absurd hd (hother l e a hl heold he)
    · obtain ⟨rfl, rfl⟩ | ⟨-, heold⟩ := getElem?_suspend hl
      · exact absurd he (hother k d a hne hdold hd)
      · exact h.separate k l d e a hdold heold hd he
  · cases hlive.symm.trans habort

/-- A connection comes in with the call it makes at once. -/
lemma Inv.accept (h : Inv c s) (hlive : s.aborted = false) (hstep : liveStep s .accept = some s') :
    Inv c s' := by
  have hread : BufferPool.step s.pool .startRead
      = some { s.pool with reads := s.pool.reads ++ [.inFlight] } := rfl
  simp only [liveStep, hread, Option.bind_eq_bind, Option.bind_some] at hstep
  cases hstep
  have hnew : ∀ k d, (s.connections ++ [{ pc := .reading s.pool.reads.length }])[k]? = some d →
      s.connections[k]? = some d ∨ k = s.connections.length ∧
        d = { pc := .reading s.pool.reads.length } := by
    intro k d hk
    rw [List.getElem?_append] at hk
    split at hk
    · exact .inl hk
    · obtain ⟨hlt, rfl⟩ := List.getElem?_eq_some_iff.mp hk
      rw [List.length_singleton] at hlt
      refine .inr ⟨by omega, ?_⟩
      simp only [List.getElem_singleton]
  have hfree : ∀ (k : ℕ) (d : Connection), s.connections[k]? = some d →
      d.pc.hold ≠ some (.call s.pool.reads.length) := fun k d hd ha =>
    Nat.lt_irrefl _ ((h.serves k d hd).held ha)
  refine ⟨BufferPool.clean_step h.clean hread, fun k d hk => ?_,
    fun k l d e a hk hl hd he => ?_, fun habort => ?_⟩
  · obtain hold | ⟨rfl, rfl⟩ := hnew k d hk
    · have hserved := h.serves k d hold
      exact hserved.same fun a ha => same_startRead (hserved.held ha)
    · exact ⟨.inFlight, [], List.getElem?_concat_length, rfl, rfl⟩
  · obtain hdold | ⟨rfl, rfl⟩ := hnew k d hk
    · obtain heold | ⟨rfl, rfl⟩ := hnew l e hl
      · exact h.separate k l d e a hdold heold hd he
      · cases he
        exact absurd hd (hfree k d hdold)
    · obtain heold | ⟨rfl, rfl⟩ := hnew l e hl
      · cases hd
        exact absurd he (hfree l e heold)
      · rfl
  · cases hlive.symm.trans habort

/-- The kernel's steps for a read. -/
lemma Inv.read_step (h : Inv c s) (hlive : s.aborted = false)
    (hj : s.connections[j]? = some conn) {r : ℕ} (hpc : conn.pc = .reading r)
    {a : BufferPool.Action} (hpool : BufferPool.step s.pool a = some p') {x : ReadState}
    {bytes received : List UInt8} (hx : s.pool.reads[r]? = some x) (hnil : awaited x = some [])
    {x' : ReadState} (hx' : p'.reads[r]? = some x') (hbytes : awaited x' = some bytes)
    (hreceived : received = conn.received ++ bytes)
    (hsame : ∀ a, a ≠ .call r → Same s.pool p' a) :
    Inv c (s.suspend p' j { conn with received := received }) := by
  have hold : conn.pc.hold = some (.call r) := by rw [hpc]; rfl
  have hserves := h.serves j conn hj
  rw [Serves, hpc] at hserves
  obtain ⟨y, ys, hy, hys, hsent⟩ := hserves
  rw [hx, Option.some_inj] at hy
  subst hy
  rw [hnil, Option.some_inj] at hys
  subst hys
  refine h.suspend hlive hj (BufferPool.clean_step h.clean hpool) ?_
    (fun b _ hb => hsame b fun heq => hb (heq ▸ hold)) fun b hb => .inl hb
  rw [Serves]
  simp only [hpc]
  exact ⟨x', bytes, hx', hbytes, by rw [hreceived, ← hsent, List.append_nil]⟩

/-- A coroutine that has come to the end of a read. -/
lemma Inv.resumeRead (h : Inv c s) (hlive : s.aborted = false)
    (hj : s.connections[j]? = some conn) {r : ℕ} (hpc : conn.pc = .reading r) {res : ℤ}
    {flags : ℕ} {stored : List UInt8}
    (hr : s.pool.reads[r]? = some (.completed res flags stored)) :
    ∃ s', liveStep s (.resumeRead j) = some s' ∧ Inv c s' := by
  have hold : conn.pc.hold = some (.call r) := by rw [hpc]; rfl
  have hserves := h.serves j conn hj
  rw [Serves, hpc] at hserves
  obtain ⟨y, ys, hy, hys, hsent⟩ := hserves
  rw [hr, Option.some_inj] at hy
  subst hy
  cases hys
  obtain ⟨p₁, hp₁, hlen, hsame, hres⟩ := resume_spec h.clean hr
  have hC₁ := BufferPool.clean_step h.clean hp₁
  have hframe : ∀ a, Held s.pool a → conn.pc.hold ≠ some a → Same s.pool p₁ a :=
    fun a ha hne => hsame a ha fun heq => hne (heq ▸ hold)
  simp only [liveStep, hj, hpc, hp₁, Option.bind_eq_bind, Option.bind_some]
  obtain ⟨hneg, hthrew⟩ | ⟨hpos, hreturned, i, hlast, hfree, howns⟩ := hres
  · rw [hthrew]
    refine ⟨_, rfl, h.suspend hlive hj hC₁ ?_ hframe nofun⟩
    rw [if_neg (Int.not_lt.mpr hneg), List.append_nil] at hsent
    exact hsent ▸ List.prefix_rfl
  · rw [if_pos hpos] at hsent
    obtain ⟨p₂, conn', hwrite, hC₂, hserves', hnew, hsame'⟩ := writeAll_spec s j hC₁ howns hsent
    rw [hreturned]
    simp only [hlast, Option.bind_some]
    refine ⟨_, hwrite, h.suspend hlive hj hC₂ hserves' (fun a ha hne => ?_) fun a ha => ?_⟩
    · have hfirst := hframe a ha hne
      exact hfirst.trans (hsame' a (hfirst.held ha) fun heq => hfree (heq ▸ ha))
    · obtain rfl | rfl := hnew a ha
      · exact .inr hfree
      · exact .inr fun hlt => by
          have hlt' : p₁.reads.length < s.pool.reads.length := hlt
          omega

/-- The kernel has taken bytes of a block. -/
lemma Inv.send (h : Inv c s) (hlive : s.aborted = false) {res : ℤ}
    (hstep : liveStep s (.send j res) = some s') : Inv c s' := by
  obtain ⟨conn, hj, hstep⟩ := Option.bind_eq_some_iff.mp hstep
  split at hstep
  · next i hpc =>
    have hserves := h.serves j conn hj
    rw [Serves, hpc] at hserves
    obtain ⟨view, howns, hsent⟩ := hserves
    obtain ⟨b, hb, hin, hview⟩ := howns.block
    simp only [hb, Option.bind_eq_bind, Option.bind_some, hview] at hstep
    obtain ⟨hle, hs'⟩ := Option.ite_none_right_eq_some.mp hstep
    cases hs'
    have hlen : view.length = (b.base s.pool.memory).readable := by
      rw [← BufferBase.length_readableView hin]
      exact congrArg List.length hview.symm
    have hold : conn.pc.hold = some (.block i) := by rw [hpc]; rfl
    refine h.suspend hlive hj h.clean ⟨view, howns, hlen ▸ hle, ?_⟩ (fun a _ _ => ?_)
      fun a ha => .inl (hold.trans ha)
    · rw [List.append_assoc, List.take_append_drop, hsent]
    · cases a with
      | call r => rfl
      | block i => exact fun view hview => hview
  · cases hstep

/-- A coroutine that has come to the end of a send. -/
lemma Inv.resumeSend (h : Inv c s) (hlive : s.aborted = false)
    (hj : s.connections[j]? = some conn) {i : ℕ} {res : ℤ} (hpc : conn.pc = .sent i res) :
    ∃ s', liveStep s (.resumeSend j) = some s' ∧ Inv c s' := by
  have hold : conn.pc.hold = some (.block i) := by rw [hpc]; rfl
  have hserves := h.serves j conn hj
  rw [Serves, hpc] at hserves
  obtain ⟨view, howns, hle, hsent⟩ := hserves
  have hframe : ∀ p' : BufferPool.State,
      (∀ a, Held s.pool a → a ≠ .block i → Same s.pool p' a) →
      ∀ a, Held s.pool a → conn.pc.hold ≠ some a → Same s.pool p' a :=
    fun p' hsame a ha hne => hsame a ha fun heq => hne (heq ▸ hold)
  simp only [liveStep, hj, hpc, Option.bind_eq_bind, Option.bind_some]
  by_cases hthrow : res = 0 ∨ res < 0 ∧ res ≠ -eIntr
  · obtain ⟨p₁, hp₁, hC₁, -, hsame⟩ := howns.destroy h.clean
    rw [if_pos hthrow, hp₁, Option.bind_some]
    refine ⟨_, rfl, h.suspend hlive hj hC₁ ?_ (hframe p₁ fun a _ => hsame a) nofun⟩
    exact ⟨_, hsent⟩
  rw [if_neg hthrow]
  by_cases hneg : res < 0
  · rw [if_pos hneg]
    have hintr : res = -eIntr := by
      by_contra hne
      exact hthrow (.inr ⟨hneg, hne⟩)
    exact ⟨_, rfl, h.clean, h.serves, h.separate, fun _ =>
      ⟨conn, List.mem_of_getElem? hj, i, hintr ▸ hpc⟩⟩
  · rw [if_neg hneg]
    obtain ⟨p₁, hp₁, hC₁, hreads, howns', hsame⟩ :=
      howns.hasRead h.clean (Int.toNat_le.mpr hle)
    obtain ⟨p₂, conn', hwrite, hC₂, hserves', hnew, hsame'⟩ :=
      writeAll_spec s j hC₁ howns' hsent
    rw [hp₁, Option.bind_some]
    refine ⟨_, hwrite,
      h.suspend hlive hj hC₂ hserves' (hframe p₂ fun a ha hne => ?_) fun a ha => ?_⟩
    · have hfirst := hsame a hne
      exact hfirst.trans (hsame' a (hfirst.held ha) hne)
    · obtain rfl | rfl := hnew a ha
      · exact .inl hold
      · refine .inr fun hlt => ?_
        have hlt' : p₁.reads.length < s.pool.reads.length := hlt
        rw [hreads] at hlt'
        exact Nat.lt_irrefl _ hlt'

/-- What one step keeps. -/
lemma step_inv {a : Action} (h : Inv c s) (hstep : step s a = some s') : Inv c s' := by
  rw [step] at hstep
  split at hstep
  · cases hstep
  next hlive =>
  rw [Bool.not_eq_true] at hlive
  cases a with
  | accept => exact h.accept hlive hstep
  | select j b =>
    obtain ⟨conn, hj, hstep⟩ := Option.bind_eq_some_iff.mp hstep
    split at hstep
    · next r hpc =>
      obtain ⟨p', hp', hstep⟩ := Option.bind_eq_some_iff.mp hstep
      cases hstep
      obtain ⟨buf, hr, hr', hsame⟩ := select_spec hp'
      exact h.read_step hlive hj hpc hp' hr rfl hr' rfl (List.append_nil _).symm hsame
    · cases hstep
  | complete j res bytes =>
    obtain ⟨conn, hj, hstep⟩ := Option.bind_eq_some_iff.mp hstep
    split at hstep
    · next r hpc =>
      obtain ⟨p', hp', hstep⟩ := Option.bind_eq_some_iff.mp hstep
      cases hstep
      obtain ⟨x, flags, stored, hx, hnil, hr', hstored, hsame⟩ := complete_spec h.clean hp'
      refine h.read_step hlive hj hpc hp' hx hnil hr' rfl ?_ hsame
      by_cases hpos : 0 < res
      · rw [if_pos hpos, if_pos hpos, hstored hpos]
      · rw [if_neg hpos, if_neg hpos]
    · cases hstep
  | provide b =>
    obtain ⟨p', hp', hstep⟩ := Option.bind_eq_some_iff.mp hstep
    cases hstep
    exact ⟨BufferPool.clean_step h.clean hp', fun j conn hj =>
      (h.serves j conn hj).same fun a _ => provide_spec hp', h.separate, h.aborted⟩
  | resumeRead j =>
    obtain ⟨conn, hj, hrest⟩ := Option.bind_eq_some_iff.mp hstep
    split at hrest
    · next r hpc =>
      obtain ⟨p', hp', -⟩ := Option.bind_eq_some_iff.mp hrest
      obtain ⟨res, flags, stored, hr⟩ := completed_of_resume hp'
      obtain ⟨t, ht, hinv⟩ := h.resumeRead hlive hj hpc hr
      rw [hstep, Option.some_inj] at ht
      exact ht ▸ hinv
    · cases hrest
  | send j res => exact h.send hlive hstep
  | resumeSend j =>
    obtain ⟨conn, hj, hrest⟩ := Option.bind_eq_some_iff.mp hstep
    split at hrest
    · next i res hpc =>
      obtain ⟨t, ht, hinv⟩ := h.resumeSend hlive hj hpc
      rw [hstep, Option.some_inj] at ht
      exact ht ▸ hinv
    · cases hrest

lemma inv_start {mem : ℕ → UInt8} {p : BufferPool.State}
    (h : BufferPool.provided mem c = some p) : Inv c (start p) :=
  ⟨BufferPool.clean_provided h, nofun, nofun, nofun⟩

end Invariant

/-! ## What the clients receive -/

/-- The connection waits for something to be received. -/
def Connection.Waits (conn : Connection) (p : BufferPool.State) : Prop :=
  ∃ r x, conn.pc = .reading r ∧ p.reads[r]? = some x ∧ awaited x = some []

/-- **Everyone gets back what is theirs.**  Take any number of connections on one pool, and any
interleaving of their coroutines with the kernel.  What has been sent on a connection is the
beginning of what was received there, and all of it while the connection waits for more.  No two
connections have one block, and no coroutine gets stuck: when its read or its send is completed
there is a step that resumes it.  The server is aborted only by a send that was interrupted. -/
theorem echoLoop_sends_back {mem : ℕ → UInt8} {c : Call} {p : BufferPool.State}
    (hp : BufferPool.provided mem c = some p) (as : List Action) (s : State)
    (hrun : serving.run (start p) as = some s) :
    (∀ (j : ℕ) (conn : Connection), s.connections[j]? = some conn →
      conn.sent <+: conn.received ∧ (conn.Waits s.pool → conn.sent = conn.received) ∧
      (s.aborted = false →
        (∀ r res flags stored, conn.pc = .reading r →
          s.pool.reads[r]? = some (.completed res flags stored) →
          ∃ s', step s (.resumeRead j) = some s') ∧
        ∀ i res, conn.pc = .sent i res → ∃ s', step s (.resumeSend j) = some s')) ∧
    (∀ (j k : ℕ) (conn conn' : Connection) (i : ℕ), s.connections[j]? = some conn →
      s.connections[k]? = some conn' → conn.pc.hold = some (.block i) →
      conn'.pc.hold = some (.block i) → j = k) ∧
    (s.aborted = true → ∃ conn ∈ s.connections, ∃ i, conn.pc = .sent i (-eIntr)) := by
  have hinv : Inv c s := serving.run_invariant (fun _ _ _ => step_inv) (inv_start hp) hrun
  refine ⟨fun j conn hj => ?_, fun j k conn conn' i hj hk => hinv.separate j k conn conn' _ hj hk,
    hinv.aborted⟩
  have hserves := hinv.serves j conn hj
  refine ⟨hserves.sent_prefix, fun ⟨r, x, hpc, hr, hx⟩ => ?_, fun hlive => ⟨?_, ?_⟩⟩
  · rw [Serves, hpc] at hserves
    obtain ⟨y, ys, hy, hys, hsent⟩ := hserves
    rw [hr, Option.some_inj] at hy
    subst hy
    rw [hx, Option.some_inj] at hys
    rw [← hsent, ← hys, List.append_nil]
  · intro r res flags stored hpc hr
    obtain ⟨s', hs', -⟩ := hinv.resumeRead hlive hj hpc hr
    exact ⟨s', by rw [step, hlive, if_neg Bool.false_ne_true, hs']⟩
  · intro i res hpc
    obtain ⟨s', hs', -⟩ := hinv.resumeSend hlive hj hpc
    exact ⟨s', by rw [step, hlive, if_neg Bool.false_ne_true, hs']⟩

/-- A pool of one block and two connections: the first has sent back three bytes in two sends, the
block has gone to the second, and the kernel has taken the byte that is in it now. -/
theorem echoLoop_sends_back_one_block :
    ∃ p s, BufferPool.provided (fun _ => 0) ⟨0, 4, 1, 7⟩ = some p ∧
      serving.run (start p) [.accept, .accept, .select 0 0, .complete 0 3 [1, 2, 3], .resumeRead 0,
        .send 0 2, .resumeSend 0, .send 0 1, .resumeSend 0, .provide 0, .select 1 0,
        .complete 1 1 [9], .resumeRead 1, .send 1 1] = some s ∧
      s.connections = [⟨.reading 2, [1, 2, 3], [1, 2, 3]⟩, ⟨.sent 0 1, [9], [9]⟩] ∧
      ∀ conn ∈ s.connections, conn.sent <+: conn.received := by
  obtain ⟨p, hp⟩ : ∃ p, BufferPool.provided (fun _ => 0) ⟨0, 4, 1, 7⟩ = some p := ⟨_, rfl⟩
  have hrun : ((BufferPool.provided (fun _ => 0) ⟨0, 4, 1, 7⟩).bind fun p =>
      serving.run (start p) [.accept, .accept, .select 0 0, .complete 0 3 [1, 2, 3], .resumeRead 0,
        .send 0 2, .resumeSend 0, .send 0 1, .resumeSend 0, .provide 0, .select 1 0,
        .complete 1 1 [9], .resumeRead 1, .send 1 1]).map (fun s => s.connections)
      = some [⟨.reading 2, [1, 2, 3], [1, 2, 3]⟩, ⟨.sent 0 1, [9], [9]⟩] := by decide
  obtain ⟨s, hs, hconns⟩ := Option.map_eq_some_iff.mp hrun
  rw [hp, Option.bind_some] at hs
  refine ⟨p, s, hp, hs, hconns, fun conn hconn => ?_⟩
  obtain ⟨j, hj⟩ := List.getElem?_of_mem hconn
  exact ((echoLoop_sends_back hp _ s hs).1 j conn hj).1

end Coring.Echo
