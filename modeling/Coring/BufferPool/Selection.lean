import Mathlib.Data.List.Nodup
import Coring.Framework.Counting
import Coring.Framework.Machine
import Coring.BufferPool.Basic

/-!
# Where a provided buffer is

Coroutines read into buffers of a group and drop the `selected_buffer_resource` objects they
get; the kernel selects buffers for their requests, completes these and takes buffers back.  A
run is any interleaving of the actions of all of them.  Between two suspensions a coroutine is
not interrupted, so the part of `read` behind its `co_await`, and a destructor, are one action
each.

The kernel takes a buffer out of the group when it selects it for a request and reports it in
the flags of the completion, whatever the result is.  A `read` whose completion has a result of
zero or less throws before it looks at the flags, and the buffer selected for it is then nowhere.
`Placed` says that no buffer is lost or doubled, and `placed_iff_keeps` that this is the only
way it can come to fail.
-/

namespace Coring.BufferPool

/-- Where one call of `read` is. -/
inductive ReadState
  /-- The request is submitted. -/
  | inFlight
  /-- The kernel has taken this buffer out of the group for it. -/
  | selected (buf : Provided)
  /-- The request is completed, and has stored `stored`; the coroutine is not resumed yet. -/
  | completed (res : ℤ) (flags : ℕ) (stored : List UInt8)
  | returned
  | threw (code : ℤ)
  deriving Repr, DecidableEq

structure State where
  /-- The group name the reads are called with. -/
  gName : UInt16
  memory : ℕ → UInt8
  group : Group
  /-- The buffers the kernel can select. -/
  available : List Provided
  /-- The `provide_buffers` requests not carried out yet. -/
  queued : List Provided := []
  reads : List ReadState := []
  /-- The live `selected_buffer_resource` objects: the index of the block `val` points to, or
  nothing after a move. -/
  resources : List (Option ℕ) := []

inductive Action
  /-- A coroutine calls `read`, up to its `co_await`. -/
  | startRead
  /-- The kernel selects the `j`-th available buffer for request `r`. -/
  | select (r j : ℕ)
  /-- The kernel completes request `r` with result `res`, having stored `bytes`. -/
  | complete (r : ℕ) (res : ℤ) (bytes : List UInt8)
  /-- The coroutine of request `r` is resumed. -/
  | resume (r : ℕ)
  /-- The move constructor of a resource. -/
  | move (k : ℕ)
  /-- The destructor of a resource. -/
  | drop (k : ℕ)
  /-- `pop_string(len)` on the buffer of a resource. -/
  | popString (k len : ℕ)
  /-- `has_read(len)` on it; `write_all` is a series of such calls, one for each send. -/
  | hasRead (k len : ℕ)
  /-- The kernel carries out the `j`-th queued request. -/
  | provide (j : ℕ)
  deriving Repr, DecidableEq

/-- The kernel may complete a request it has selected `buf` for in this way. -/
def mayComplete (buf : Provided) (res : ℤ) (bytes : List UInt8) : Prop :=
  bytes.length ≤ buf.len ∧ (0 < res → res = bytes.length)

instance (buf : Provided) (res : ℤ) (bytes : List UInt8) : Decidable (mayComplete buf res bytes) :=
  inferInstanceAs (Decidable (_ ∧ _))

/-- The body of `~selected_buffer_resource` for the block `b` at index `i`. -/
def State.returnBlock (s : State) (i : ℕ) (b : SelectedBuffer) : State :=
  { s with
    queued := s.queued ++ provideBuffers b.data b.size 1 b.groupId b.bufId
    group := s.group.setBlock i (b.clear s.memory) }

/-- Change the block that resource `k` points to. -/
def State.useBlock (s : State) (k : ℕ) (f : SelectedBuffer → SelectedBuffer) : Option State :=
  match s.resources[k]? with
  | some (some i) =>
      match s.group.blocks[i]? with
      | some b => some { s with group := s.group.setBlock i (f b) }
      | none => none
  | _ => none

def step (s : State) : Action → Option State
  | .startRead => some { s with reads := s.reads ++ [.inFlight] }
  | .select r j =>
      match s.reads[r]?, s.available[j]? with
      | some .inFlight, some buf =>
          if buf.gid = s.gName then
            some { s with
              available := s.available.eraseIdx j, reads := s.reads.set r (.selected buf) }
          else none
      | _, _ => none
  | .complete r res bytes =>
      match s.reads[r]? with
      | some .inFlight =>
          -- no buffer was selected: there was none, or the request failed before
          if res ≤ 0 ∧ bytes = [] then
            some { s with reads := s.reads.set r (.completed res 0 []) }
          else none
      | some (.selected buf) =>
          if mayComplete buf res bytes then
            some { s with
              memory := store s.memory buf.addr bytes
              reads := s.reads.set r (.completed res (cqeFlags buf.bid) bytes) }
          else none
      | _ => none
  | .resume r =>
      match s.reads[r]? with
      | some (.completed res flags _) =>
          match afterRead s.memory s.group res flags with
          | .threw code => some { s with reads := s.reads.set r (.threw code) }
          | .returned g i =>
              some { s with
                group := g, reads := s.reads.set r .returned
                resources := s.resources ++ [some i] }
          | _ => none
      | _ => none
  | .move k =>
      match s.resources[k]? with
      | some val => some { s with resources := s.resources.set k none ++ [val] }
      | none => none
  | .drop k =>
      match s.resources[k]? with
      | some none => some { s with resources := s.resources.eraseIdx k }
      | some (some i) =>
          match s.group.blocks[i]? with
          | some b => some { s.returnBlock i b with resources := s.resources.eraseIdx k }
          | none => none
      | none => none
  | .popString k len => s.useBlock k fun b => (b.popString s.memory len).2
  | .hasRead k len => s.useBlock k fun b => b.hasRead s.memory len
  | .provide j =>
      match s.queued[j]? with
      | some buf =>
          some { s with available := s.available ++ [buf], queued := s.queued.eraseIdx j }
      | none => none

def selecting : Machine State Action := ⟨step⟩

/-- A group provided once, on an empty pool; the kernel has all its buffers. -/
def provided (mem : ℕ → UInt8) (c : Call) : Option State :=
  if fits c.n c.m then
    some { gName := c.gid, memory := mem
           group := provideGroupContiguous {} c.base c.n c.m c.gid
           available := provideBuffers c.base c.n c.m c.gid 0 }
  else none

/-! ## What a step does -/

/-- The effects of the actions, one for each way they can go. -/
inductive Effect (s : State) : Action → State → Prop
  | startRead : Effect s .startRead { s with reads := s.reads ++ [.inFlight] }
  | select {r j : ℕ} {buf : Provided} (hr : s.reads[r]? = some .inFlight)
      (hj : s.available[j]? = some buf) (hgid : buf.gid = s.gName) :
      Effect s (.select r j) { s with
        available := s.available.eraseIdx j, reads := s.reads.set r (.selected buf) }
  | completeUnselected {r : ℕ} {res : ℤ} (hr : s.reads[r]? = some .inFlight) (hres : res ≤ 0) :
      Effect s (.complete r res []) { s with reads := s.reads.set r (.completed res 0 []) }
  | complete {r : ℕ} {res : ℤ} {bytes : List UInt8} {buf : Provided}
      (hr : s.reads[r]? = some (.selected buf)) (h : mayComplete buf res bytes) :
      Effect s (.complete r res bytes) { s with
        memory := store s.memory buf.addr bytes
        reads := s.reads.set r (.completed res (cqeFlags buf.bid) bytes) }
  | threw {r : ℕ} {res : ℤ} {flags : ℕ} {stored : List UInt8}
      (hr : s.reads[r]? = some (.completed res flags stored)) (hres : res ≤ 0) :
      Effect s (.resume r) { s with reads := s.reads.set r (.threw (-res)) }
  | returned {r : ℕ} {res : ℤ} {flags : ℕ} {stored : List UInt8} {b : SelectedBuffer}
      (hr : s.reads[r]? = some (.completed res flags stored)) (hres : 0 < res)
      (hb : s.group.blocks[flagOf flags]? = some b) :
      Effect s (.resume r) { s with
        group := s.group.setBlock (flagOf flags) (b.hasWritten s.memory res.toNat)
        reads := s.reads.set r .returned
        resources := s.resources ++ [some (flagOf flags)] }
  | move {k : ℕ} {val : Option ℕ} (hk : s.resources[k]? = some val) :
      Effect s (.move k) { s with resources := s.resources.set k none ++ [val] }
  | dropNull {k : ℕ} (hk : s.resources[k]? = some none) :
      Effect s (.drop k) { s with resources := s.resources.eraseIdx k }
  | drop {k i : ℕ} {b : SelectedBuffer} (hk : s.resources[k]? = some (some i))
      (hb : s.group.blocks[i]? = some b) :
      Effect s (.drop k) { s.returnBlock i b with resources := s.resources.eraseIdx k }
  | use {a : Action} {k i : ℕ} {b : SelectedBuffer} (c : BufferBase) (ha : ∀ r, a ≠ .resume r)
      (hk : s.resources[k]? = some (some i)) (hb : s.group.blocks[i]? = some b) :
      Effect s a { s with group := s.group.setBlock i (b.withIndices c) }
  | provide {j : ℕ} {buf : Provided} (hj : s.queued[j]? = some buf) :
      Effect s (.provide j) { s with
        available := s.available ++ [buf], queued := s.queued.eraseIdx j }

lemma useBlock_effect {s s' : State} {a : Action} {k : ℕ} {f : SelectedBuffer → SelectedBuffer}
    (hf : ∀ b, ∃ c, f b = b.withIndices c) (ha : ∀ r, a ≠ .resume r)
    (h : s.useBlock k f = some s') : Effect s a s' := by
  unfold State.useBlock at h
  split at h
  · rename_i i hk
    split at h
    · rename_i b hb
      obtain ⟨c, hc⟩ := hf b
      cases h
      rw [hc]
      exact Effect.use c ha hk hb
    · cases h
  · cases h

/-- Every step has one of the effects. -/
theorem step_effect {s s' : State} {a : Action} (h : step s a = some s') : Effect s a s' := by
  cases a with
  | startRead =>
    cases h
    exact Effect.startRead
  | select r j =>
    simp only [step] at h
    split at h
    · rename_i buf hr hj
      obtain ⟨hgid, hs'⟩ := Option.ite_none_right_eq_some.mp h
      cases hs'
      exact Effect.select hr hj hgid
    · cases h
  | complete r res bytes =>
    simp only [step] at h
    split at h
    · rename_i hr
      obtain ⟨⟨hres, rfl⟩, hs'⟩ := Option.ite_none_right_eq_some.mp h
      cases hs'
      exact Effect.completeUnselected hr hres
    · rename_i buf hr
      obtain ⟨hmay, hs'⟩ := Option.ite_none_right_eq_some.mp h
      cases hs'
      exact Effect.complete hr hmay
    · cases h
  | resume r =>
    simp only [step] at h
    split at h
    · rename_i res flags stored hr
      by_cases hres : res ≤ 0
      · simp only [afterRead, if_pos hres] at h
        cases h
        exact Effect.threw hr hres
      · simp only [afterRead, if_neg hres] at h
        cases hb : s.group.blocks[flagOf flags]? with
        | none =>
          rw [hb] at h
          cases h
        | some b =>
          rw [hb] at h
          cases h
          exact Effect.returned hr (Int.not_le.mp hres) hb
    · cases h
  | move k =>
    simp only [step] at h
    split at h
    · rename_i val hk
      cases h
      exact Effect.move hk
    · cases h
  | drop k =>
    simp only [step] at h
    split at h
    · rename_i hk
      cases h
      exact Effect.dropNull hk
    · rename_i i hk
      split at h
      · rename_i b hb
        cases h
        exact Effect.drop hk hb
      · cases h
    · cases h
  | popString k len => exact useBlock_effect (fun b => ⟨_, rfl⟩) (fun r hr => by cases hr) h
  | hasRead k len => exact useBlock_effect (fun b => ⟨_, rfl⟩) (fun r hr => by cases hr) h
  | provide j =>
    simp only [step] at h
    split at h
    · rename_i buf hj
      cases h
      exact Effect.provide hj
    · cases h

/-! ## What every state satisfies -/

/-- The buffer is one of those the call provided. -/
structure Call.Known (c : Call) (p : Provided) : Prop where
  gid : p.gid = c.gid
  bid : p.bid < c.m
  addr : p.addr = c.base + p.bid * c.n
  len : p.len = c.n

/-- A read has selected, if anything, one of the buffers of the call, and a result above zero
means that it has. -/
def ReadState.Regular (c : Call) : ReadState → Prop
  | .selected p => c.Known p
  | .completed res flags stored =>
      (flags = 0 ∧ res ≤ 0) ∨
        ∃ b < c.m, flags = cqeFlags b ∧ stored.length ≤ c.n ∧ (0 < res → res = stored.length)
  | _ => True

/-- The blocks and buffers of a state that came from the call `c`. -/
structure Inv (c : Call) (s : State) : Prop where
  gName : s.gName = c.gid
  length_le : s.group.blocks.length ≤ c.m
  length_eq : 0 < c.n → s.group.blocks.length = c.m
  /-- Up to its indices a block is what `provide_group_contiguous` made it. -/
  blocks : ∀ i b, s.group.blocks[i]? = some b → b.clear s.memory = block c.base c.n c.gid i
  available : ∀ p ∈ s.available, c.Known p
  queued : ∀ p ∈ s.queued, c.Known p
  reads : ∀ x ∈ s.reads, x.Regular c

section Invariant

variable {c : Call} {s s' : State} {a : Action}

lemma provideBuffers_one (addr len : ℕ) (gid : UInt16) (bid : ℕ) :
    provideBuffers addr len 1 gid bid = [⟨gid, bid, addr, len⟩] := by
  simp [provideBuffers]

lemma known_of_clear_eq {b : SelectedBuffer} {mem : ℕ → UInt8} {i : ℕ}
    (h : b.clear mem = block c.base c.n c.gid i) (hi : i < c.m) :
    c.Known ⟨b.groupId, b.bufId, b.data, b.size⟩ := by
  have hid : b.bufId = i := congrArg SelectedBuffer.bufId h
  exact ⟨congrArg SelectedBuffer.groupId h, hid ▸ hi,
    hid ▸ congrArg SelectedBuffer.data h, congrArg SelectedBuffer.size h⟩

/-- New indices for a block keep the invariant. -/
lemma Inv.setBlock (hI : Inv c s) {i : ℕ} {b : SelectedBuffer} (hb : s.group.blocks[i]? = some b)
    (d : BufferBase) : Inv c { s with group := s.group.setBlock i (b.withIndices d) } := by
  have hlen : (s.group.setBlock i (b.withIndices d)).blocks.length = s.group.blocks.length :=
    List.length_set
  refine { hI with length_le := ?_, length_eq := ?_, blocks := ?_ }
  · exact hlen.symm ▸ hI.length_le
  · exact fun hn => hlen.trans (hI.length_eq hn)
  · intro j x hx
    have hlt := (List.getElem?_eq_some_iff.mp hb).1
    simp only [Group.setBlock] at hx
    by_cases hij : i = j
    · subst hij
      rw [List.getElem?_set_self hlt, Option.some_inj] at hx
      rw [← hx]
      exact hI.blocks i b hb
    · rw [List.getElem?_set_ne hij] at hx
      exact hI.blocks j x hx

lemma Inv.setRead (hI : Inv c s) (r : ℕ) {x : ReadState} (hx : x.Regular c) :
    Inv c { s with reads := s.reads.set r x } := by
  refine { hI with reads := fun y hy => ?_ }
  rcases List.mem_or_eq_of_mem_set hy with hy | rfl
  · exact hI.reads y hy
  · exact hx

lemma Inv.regular (hI : Inv c s) {r : ℕ} {x : ReadState} (hr : s.reads[r]? = some x) :
    x.Regular c := hI.reads x (List.mem_of_getElem? hr)

lemma Inv.index_lt (hI : Inv c s) {i : ℕ} {b : SelectedBuffer}
    (hb : s.group.blocks[i]? = some b) : i < c.m :=
  Nat.lt_of_lt_of_le (List.getElem?_eq_some_iff.mp hb).1 hI.length_le

lemma inv_effect (hI : Inv c s) (h : Effect s a s') : Inv c s' := by
  cases h with
  | startRead =>
    refine { hI with reads := fun y hy => ?_ }
    rcases List.mem_append.mp hy with hy | hy
    · exact hI.reads y hy
    · rw [List.mem_singleton.mp hy]
      trivial
  | @select r j buf hr hj hgid =>
    have hbuf := hI.available buf (List.mem_of_getElem? hj)
    have hset := hI.setRead r (x := .selected buf) hbuf
    exact { hset with available := fun p hp => hI.available p (List.mem_of_mem_eraseIdx hp) }
  | @completeUnselected r res hr hres => exact hI.setRead r (.inl ⟨rfl, hres⟩)
  | @complete r res bytes buf hr hmay =>
    have hbuf : c.Known buf := hI.regular hr
    have hset := hI.setRead r (x := .completed res (cqeFlags buf.bid) bytes)
      (.inr ⟨buf.bid, hbuf.bid, rfl, hbuf.len ▸ hmay.1, hmay.2⟩)
    exact { hset with blocks := hI.blocks }
  | @threw r => exact hI.setRead r trivial
  | @returned r res flags stored b hr hres hb =>
    exact { (hI.setBlock hb _).setRead r (x := .returned) trivial with }
  | move hk => exact { hI with }
  | dropNull hk => exact { hI with }
  | @drop k i b hk hb =>
    have hclear := hI.blocks i b hb
    have hset := hI.setBlock hb (b.base s.memory).clear
    refine { hset with queued := fun p hp => ?_ }
    rcases List.mem_append.mp hp with hp | hp
    · exact hI.queued p hp
    · rw [provideBuffers_one, List.mem_singleton] at hp
      rw [hp]
      exact known_of_clear_eq hclear (hI.index_lt hb)
  | use d ha hk hb => exact hI.setBlock hb d
  | @provide j buf hj =>
    refine { hI with available := fun p hp => ?_, queued := fun p hp => ?_ }
    · rcases List.mem_append.mp hp with hp | hp
      · exact hI.available p hp
      · rw [List.mem_singleton.mp hp]
        exact hI.queued buf (List.mem_of_getElem? hj)
    · exact hI.queued p (List.mem_of_mem_eraseIdx hp)

lemma inv_provided {mem : ℕ → UInt8} (h : provided mem c = some s) : Inv c s := by
  obtain ⟨hfits, hs⟩ := Option.ite_none_right_eq_some.mp h
  cases hs
  have hblocks := blocks_provideGroupContiguous {} c.base c.gid hfits
  rw [List.nil_append] at hblocks
  refine ⟨rfl, ?_, ?_, ?_, ?_, ?_, ?_⟩
  · rw [hblocks, newBlocks]
    split <;> simp
  · intro hn
    rw [hblocks, newBlocks, if_neg (by omega), List.length_map, List.length_range]
  · intro i b hb
    rw [hblocks] at hb
    rw [eq_block_of_newBlocks hb]
    rfl
  · intro p hp
    obtain ⟨b, hb, rfl⟩ := List.mem_map.mp hp
    rw [Nat.zero_add]
    exact ⟨rfl, List.mem_range.mp hb, rfl, rfl⟩
  · intro p hp
    cases hp
  · intro x hx
    cases hx

end Invariant

/-! ## The places of a buffer -/

/-- The id of the buffer selected for a read that is not over. -/
def ReadState.buffer : ReadState → Option ℕ
  | .selected buf => some buf.bid
  | .completed _ flags _ => if selectedBuffer flags then some (flagOf flags) else none
  | _ => none

/-- The read will throw when it is resumed. -/
def ReadState.fails : ReadState → Bool
  | .completed res _ _ => res ≤ 0
  | _ => false

/-- How many of these buffers have the id `b` in the group. -/
def provides (gid : UInt16) (l : List Provided) (b : ℕ) : ℕ :=
  l.countP fun p => p.gid = gid ∧ p.bid = b

/-- How many of these reads the buffer `b` is selected for. -/
def selectors (l : List ReadState) (b : ℕ) : ℕ := l.countP fun x => x.buffer = some b

/-- How many of these resources own the buffer `b`. -/
def owners (l : List (Option ℕ)) (b : ℕ) : ℕ := l.countP fun val => val = some b

namespace State

variable (s : State)

/-- In how many places the buffer with id `b` of the group is: available, queued to be provided
again, selected by a read that is not over, or owned by a live resource. -/
def places (b : ℕ) : ℕ :=
  provides s.gName s.available b + provides s.gName s.queued b + selectors s.reads b +
    owners s.resources b

/-- The buffer that was selected for a read the step resumes only to throw. -/
def lost : Action → Option ℕ
  | .resume r =>
      match s.reads[r]? with
      | some x => if x.fails then x.buffer else none
      | none => none
  | _ => none

end State

/-- Each of the `m` buffers is in one place. -/
def Placed (m : ℕ) (s : State) : Prop := ∀ b < m, s.places b = 1

instance (m : ℕ) (s : State) : Decidable (Placed m s) :=
  inferInstanceAs (Decidable (∀ b, b < m → s.places b = 1))

/-- The step does not resume a read whose completion has a result of zero or less and selected
a buffer. -/
def Keeps (s : State) (a : Action) : Prop := s.lost a = none

instance (s : State) (a : Action) : Decidable (Keeps s a) := inferInstanceAs (Decidable (_ = _))

section Places

variable {c : Call} {s s' : State} {a : Action}

@[simp] lemma buffer_inFlight : ReadState.inFlight.buffer = none := rfl

@[simp] lemma buffer_selected (buf : Provided) :
    (ReadState.selected buf).buffer = some buf.bid := rfl

@[simp] lemma buffer_completed (res : ℤ) (b : ℕ) (stored : List UInt8) :
    (ReadState.completed res (cqeFlags b) stored).buffer = some b := by
  simp [ReadState.buffer]

@[simp] lemma buffer_completed_zero (res : ℤ) (stored : List UInt8) :
    (ReadState.completed res 0 stored).buffer = none := rfl

@[simp] lemma buffer_returned : ReadState.returned.buffer = none := rfl

@[simp] lemma buffer_threw (code : ℤ) : (ReadState.threw code).buffer = none := rfl

lemma selectors_set {l : List ReadState} {r : ℕ} {x : ReadState} (h : l[r]? = some x)
    (y : ReadState) (b : ℕ) :
    selectors (l.set r y) b + (if x.buffer = some b then 1 else 0) =
      selectors l b + if y.buffer = some b then 1 else 0 := by
  have hset := countP_set_add (p := fun x : ReadState => decide (x.buffer = some b)) h y
  simpa only [selectors, decide_eq_true_eq] using hset

lemma provides_eraseIdx {l : List Provided} {j : ℕ} {p : Provided} (h : l[j]? = some p)
    (gid : UInt16) (b : ℕ) :
    provides gid (l.eraseIdx j) b + (if p.gid = gid ∧ p.bid = b then 1 else 0) =
      provides gid l b := by
  have herase := countP_eraseIdx_add (p := fun p : Provided => decide (p.gid = gid ∧ p.bid = b)) h
  simpa only [provides, decide_eq_true_eq] using herase

lemma provides_concat (gid : UInt16) (l : List Provided) (p : Provided) (b : ℕ) :
    provides gid (l ++ [p]) b = provides gid l b + if p.gid = gid ∧ p.bid = b then 1 else 0 := by
  simp only [provides, countP_concat, decide_eq_true_eq]

lemma owners_eraseIdx {l : List (Option ℕ)} {k : ℕ} {val : Option ℕ} (h : l[k]? = some val)
    (b : ℕ) : owners (l.eraseIdx k) b + (if val = some b then 1 else 0) = owners l b := by
  have herase := countP_eraseIdx_add (p := fun v : Option ℕ => decide (v = some b)) h
  simpa only [owners, decide_eq_true_eq] using herase

lemma owners_moved {l : List (Option ℕ)} {k : ℕ} {val : Option ℕ} (h : l[k]? = some val)
    (b : ℕ) : owners (l.set k none ++ [val]) b = owners l b := by
  have hset := countP_set_add (p := fun v : Option ℕ => decide (v = some b)) h none
  simpa only [owners, countP_concat, decide_eq_true_eq, reduceCtorEq, if_false, Nat.add_zero]
    using hset

lemma owners_concat (l : List (Option ℕ)) (i b : ℕ) :
    owners (l ++ [some i]) b = owners l b + if some i = some b then 1 else 0 := by
  simp only [owners, countP_concat, decide_eq_true_eq]

/-- The completion of a read that returns selected the buffer whose index it returns. -/
lemma Inv.buffer_of_pos (hI : Inv c s) {r : ℕ} {res : ℤ} {flags : ℕ} {stored : List UInt8}
    (hr : s.reads[r]? = some (.completed res flags stored)) (hres : 0 < res) :
    (ReadState.completed res flags stored).buffer = some (flagOf flags) := by
  rcases hI.regular hr with ⟨-, hle⟩ | ⟨b, -, rfl, -⟩
  · exact absurd hres (Int.not_lt.mpr hle)
  · rw [buffer_completed, flagOf_cqeFlags]

/-- A step moves buffers between the places, and loses the one `lost` names. -/
lemma places_effect (hI : Inv c s) (h : Effect s a s') (b : ℕ) :
    s'.places b + (if s.lost a = some b then 1 else 0) = s.places b := by
  cases h with
  | startRead =>
    simp [State.places, State.lost, selectors]
  | @select r j buf hr hj hgid =>
    have havail := provides_eraseIdx hj s.gName b
    have hreads := selectors_set hr (.selected buf) b
    simp only [hgid, true_and] at havail
    simp only [buffer_inFlight, buffer_selected, reduceCtorEq, if_false, Option.some_inj] at hreads
    simp only [State.places, State.lost, reduceCtorEq, if_false]
    omega
  | @completeUnselected r res hr hres =>
    have hreads := selectors_set hr (.completed res 0 []) b
    simp only [buffer_inFlight, buffer_completed_zero, reduceCtorEq, if_false] at hreads
    simp only [State.places, State.lost, reduceCtorEq, if_false]
    omega
  | @complete r res bytes buf hr hmay =>
    have hreads := selectors_set hr (.completed res (cqeFlags buf.bid) bytes) b
    simp only [buffer_selected, buffer_completed, Option.some_inj] at hreads
    simp only [State.places, State.lost, reduceCtorEq, if_false]
    omega
  | @threw r res flags stored hr hres =>
    have hreads := selectors_set hr (.threw (-res)) b
    have hlost : s.lost (.resume r) = (ReadState.completed res flags stored).buffer := by
      simp only [State.lost, hr, ReadState.fails, decide_eq_true_eq, if_pos hres]
    simp only [buffer_threw, reduceCtorEq, if_false] at hreads
    simp only [State.places, hlost]
    omega
  | @returned r res flags stored b' hr hres hb =>
    have hreads := selectors_set hr .returned b
    have hlost : s.lost (.resume r) = none := by
      simp only [State.lost, hr, ReadState.fails, decide_eq_true_eq, if_neg (Int.not_le.mpr hres)]
    simp only [hI.buffer_of_pos hr hres, buffer_returned, reduceCtorEq, if_false] at hreads
    simp only [State.places, owners_concat, hlost, reduceCtorEq, if_false]
    omega
  | @move k val hk => simp only [State.places, State.lost, owners_moved hk, reduceCtorEq, if_false,
      Nat.add_zero]
  | @dropNull k hk =>
    have hres := owners_eraseIdx hk b
    simp only [reduceCtorEq, if_false] at hres
    simp only [State.places, State.lost, reduceCtorEq, if_false]
    omega
  | @drop k i b' hk hb =>
    have hres := owners_eraseIdx hk b
    have hclear := hI.blocks i b' hb
    have hid : b'.bufId = i := congrArg SelectedBuffer.bufId hclear
    have hgid : b'.groupId = s.gName := (congrArg SelectedBuffer.groupId hclear).trans hI.gName.symm
    simp only [Option.some_inj] at hres
    simp only [State.places, State.lost, State.returnBlock, provideBuffers_one, provides_concat,
      hid, hgid, true_and, reduceCtorEq, if_false]
    omega
  | @use _ k i b' d ha hk hb =>
    have hlost : s.lost a = none := by
      cases a with
      | resume r => exact absurd rfl (ha r)
      | _ => rfl
    simp only [State.places, hlost, reduceCtorEq, if_false, Nat.add_zero]
  | @provide j buf hj =>
    have hqueued := provides_eraseIdx hj s.gName b
    simp only [State.places, State.lost, provides_concat, reduceCtorEq, if_false]
    omega

/-- The buffer a step loses is one of the group's. -/
lemma lost_lt (hI : Inv c s) {b : ℕ} (h : s.lost a = some b) : b < c.m := by
  cases a with
  | resume r =>
    simp only [State.lost] at h
    split at h
    · rename_i x hr
      have hx := hI.regular hr
      cases x with
      | completed res flags stored =>
        rcases hx with ⟨rfl, -⟩ | ⟨b', hb', rfl, -⟩
        · simp at h
        · simp at h
          omega
      | _ => cases h
    · cases h
  | _ => cases h

lemma placed_step_iff (hI : Inv c s) (hp : Placed c.m s) (h : step s a = some s') :
    Placed c.m s' ↔ Keeps s a := by
  have hplaces := places_effect hI (step_effect h)
  constructor
  · intro hp'
    cases hlost : s.lost a with
    | none => exact hlost
    | some b =>
      have hb := lost_lt hI hlost
      have hpb := hplaces b
      rw [if_pos hlost, hp b hb, hp' b hb] at hpb
      cases hpb
  · intro hkeeps b hb
    have hpb := hplaces b
    rw [show s.lost a = none from hkeeps] at hpb
    rw [← hp b hb, ← hpb]
    rfl

lemma provides_provideBuffers (c : Call) (b : ℕ) :
    provides c.gid (provideBuffers c.base c.n c.m c.gid 0) b = (List.range c.m).count b := by
  rw [provides, provideBuffers, List.countP_map, List.count]
  congr 1
  funext j
  simp [beq_eq_decide]

lemma placed_provided {mem : ℕ → UInt8} (h : provided mem c = some s) : Placed c.m s := by
  obtain ⟨-, hs⟩ := Option.ite_none_right_eq_some.mp h
  cases hs
  intro b hb
  have hone : (List.range c.m).count b = 1 :=
    List.count_eq_one_of_mem List.nodup_range (List.mem_range.mpr hb)
  simp only [State.places, provides_provideBuffers, hone]
  rfl

end Places

/-- **When no buffer is lost**: along a run every buffer of the group is in one place exactly as
long as no read is resumed with a result of zero or less for which a buffer was selected. -/
theorem placed_iff_keeps {mem : ℕ → UInt8} {c : Call} {s₀ : State}
    (h : provided mem c = some s₀) (as : List Action) :
    selecting.Always (Placed c.m) s₀ as ↔ selecting.Each Keeps s₀ as :=
  selecting.always_iff_each (fun _ _ _ hI hstep => inv_effect hI (step_effect hstep))
    (fun _ _ _ hI _ hp hstep => placed_step_iff hI hp hstep) as s₀ (inv_provided h)
    (placed_provided h) (selecting.each_of_forall (fun _ _ => trivial) _ _)

/-- A read that gets two bytes, and a resource that is dropped and whose buffer is provided
again. -/
theorem placed_iff_keeps_one_read :
    ∃ s₀, provided (fun _ => 0) ⟨0, 4, 2, 7⟩ = some s₀ ∧
      selecting.Always (Placed 2) s₀
        [.startRead, .select 0 0, .complete 0 2 [1, 2], .resume 0, .drop 0, .provide 0] := by
  refine ⟨_, rfl, ?_⟩
  apply (placed_iff_keeps (c := ⟨0, 4, 2, 7⟩) rfl _).mpr
  decide

/-- A read that ends at the end of the file, after a buffer was selected for it. -/
theorem placed_fails_on_end_of_file :
    ¬ ∀ mem c s₀ as, provided mem c = some s₀ → selecting.Always (Placed c.m) s₀ as := by
  intro h
  have halways := h (fun _ => 0) ⟨0, 4, 2, 7⟩ _
    [.startRead, .select 0 0, .complete 0 0 [], .resume 0] rfl
  exact absurd halways (by decide)

end Coring.BufferPool
