import Coring.Framework.Storage
import Coring.Logging.SpscQueue
import Mathlib.Data.List.Nodup

/-!
# The ring called from one thread

Between two calls of one party the other may be doing nothing, and then a call is a function of the
ring.  This file embeds the member functions of `include/coring/detail/logging/spsc_ring.hpp` as
such functions.  `run_tryEmplace_true` and `run_take` say of the calls that put a value in and take
it out that they are what the steps come to when nobody interferes.

`Stores` lists what is stored.  Under it every call does what a queue of bounded length does
(`answers_eq`), so the queue is all that can be seen of a ring; what the slots between the write and
the read index still hold is not.
-/

namespace Coring.Logging

namespace SpscRing

variable {α : Type}

/-! ## Calls -/

/-- `try_emplace`: the ring after the call and what is returned. -/
def tryEmplace (r : SpscRing α) (v : α) : SpscRing α × Bool :=
  if r.freeEntries r.indexRead r.indexWrite = 0 then (r, false)
  else
    ({ r with
      data := Function.update r.data (r.slot r.indexWrite) (some v)
      indexWrite := r.indexWrite + 1 }, true)

/-- `front`: the slot pointed to. -/
def front (r : SpscRing α) : Option ℕ :=
  let entries := r.indexWrite - r.indexRead
  if entries = 0 then none else some (r.slot r.indexRead)

def pop (r : SpscRing α) : SpscRing α :=
  { r with
    data := Function.update r.data (r.slot r.indexRead) none
    indexRead := r.indexRead + 1 }

/-- `size`; `none` if its assertion fails. -/
def size (r : SpscRing α) : Option (BitVec 64) :=
  let entries := r.indexWrite - r.indexRead
  if entries &&& ~~~r.mask = 0 then some entries else none

/-- What `batch_out(v)` makes of `v`: `resize`, and the copies. -/
def batched (r : SpscRing α) (v : List (Option α)) : List (Option α) :=
  let entries := r.indexWrite - r.indexRead
  (r.copies r.indexRead r.indexWrite).foldl (fun v' c => v'.set (v.length + c.1) (r.data c.2))
    (v ++ List.replicate entries.toNat none)

/-- `batch_out(v)`: the ring and `v` after the call, and what is returned. -/
def batchOut (r : SpscRing α) (v : List (Option α)) : SpscRing α × List (Option α) × Bool :=
  let entries := r.indexWrite - r.indexRead
  if entries = 0 then (r, v, false)
  else ({ r with indexRead := r.indexRead + entries }, r.batched v, true)

def empty (r : SpscRing α) : Option Bool := r.size.map fun n => n == 0

def full (r : SpscRing α) : Bool :=
  if r.freeEntries r.indexRead r.indexWrite = 0 then false else true

/-- `capacity()`. -/
def getCapacity (r : SpscRing α) : BitVec 64 := r.mask

/-- `while (T *p = front()) { v.push_back(*p); pop(); }` -/
def drain : ℕ → SpscRing α → List (Option α) → Option (SpscRing α × List (Option α))
  | 0, _, _ => none
  | fuel + 1, r, v => match r.front with
      | none => some (r, v)
      | some p => drain fuel r.pop (v ++ [r.data p])

/-- The slots between the two indices. -/
def occupied (r : SpscRing α) : List ℕ :=
  (List.range (r.indexWrite - r.indexRead).toNat).map fun i =>
    r.slot (r.indexRead + counter 64 i)

/-- What is stored there. -/
def stored (r : SpscRing α) : List (Option α) := r.occupied.map r.data

/-! ## What is stored -/

/-- After `m` values have been released, `l` is stored. -/
structure Stores (k : ℕ) (r : SpscRing α) (m : ℕ) (l : List (Option α)) : Prop where
  pow : r.IsPow k
  read : r.indexRead = counter 64 m
  write : r.indexWrite = counter 64 (m + l.length)
  room : l.length ≤ 2 ^ k - 1
  holds : Holds (2 ^ k) r.data m l

/-- Whatever the slots hold, there is such a list. -/
lemma exists_stores {k m e : ℕ} {r : SpscRing α} (hpow : r.IsPow k)
    (hread : r.indexRead = counter 64 m) (hwrite : r.indexWrite = counter 64 (m + e))
    (hroom : e ≤ 2 ^ k - 1) : ∃ l, r.Stores k m l := by
  have hlen : ((List.range e).map fun i => r.data ((m + i) % 2 ^ k)).length = e := by
    rw [List.length_map, List.length_range]
  refine ⟨_, hpow, hread, ?_, ?_, holds_map_range (2 ^ k) r.data m e⟩
  · rw [hlen, hwrite]
  · rw [hlen]
    exact hroom

namespace Stores

variable {k m : ℕ} {r : SpscRing α} {l : List (Option α)} {x : Option α}

lemma room_lt (h : r.Stores k m l) : l.length < 2 ^ 64 := by
  have hlt := h.pow.pow_lt
  have hroom := h.room
  omega

lemma entries_toNat (h : r.Stores k m l) : (r.indexWrite - r.indexRead).toNat = l.length := by
  have hlt := h.room_lt
  rw [h.write, h.read, counter_sub (Nat.le_add_right ..) (by omega), Nat.add_sub_cancel_left]

lemma entries_eq_zero_iff (h : r.Stores k m l) : r.indexWrite - r.indexRead = 0 ↔ l = [] := by
  rw [← BitVec.toNat_inj, h.entries_toNat]
  exact List.length_eq_zero_iff

lemma freeEntries_eq_zero_iff (h : r.Stores k m l) :
    r.freeEntries r.indexRead r.indexWrite = 0 ↔ l.length = 2 ^ k - 1 := by
  have hroom := h.room
  rw [h.read, h.write, h.pow.freeEntries_eq_zero_iff (Nat.le_add_right ..) (by omega)]
  omega

lemma slot_eq (h : r.Stores k m l) (i : ℕ) :
    r.slot (r.indexRead + counter 64 i) = (m + i) % 2 ^ k := by
  rw [h.read, ← counter_add, h.pow.slot_eq]

lemma stored_eq (h : r.Stores k m l) : r.stored = l := by
  rw [stored, occupied, h.entries_toNat, List.map_map]
  simp only [Function.comp_def, h.slot_eq]
  exact h.holds.map_range

/-- No two values share a slot. -/
lemma nodup_occupied (h : r.Stores k m l) : r.occupied.Nodup := by
  have hroom := h.room
  rw [occupied, h.entries_toNat]
  refine List.Nodup.map_on (fun i hi j hj hij => ?_) List.nodup_range
  have hi := List.mem_range.mp hi
  have hj := List.mem_range.mp hj
  rw [h.slot_eq, h.slot_eq] at hij
  rcases Nat.lt_trichotomy i j with hlt | heq | hgt
  · exact absurd hij (slot_ne (by omega) (by omega))
  · exact heq
  · exact absurd hij.symm (slot_ne (by omega) (by omega))

/-! ## What the calls do -/

lemma tryEmplace_full (h : r.Stores k m l) (hfull : l.length = 2 ^ k - 1) (v : α) :
    r.tryEmplace v = (r, false) := if_pos (h.freeEntries_eq_zero_iff.mpr hfull)

lemma tryEmplace_of_lt (h : r.Stores k m l) (hlt : l.length < 2 ^ k - 1) (v : α) :
    (r.tryEmplace v).2 = true ∧ (r.tryEmplace v).1.Stores k m (l ++ [some v]) := by
  have hne : ¬r.freeEntries r.indexRead r.indexWrite = 0 := by
    rw [h.freeEntries_eq_zero_iff]
    omega
  have hslot : r.slot r.indexWrite = (m + l.length) % 2 ^ k := by rw [h.write, h.pow.slot_eq]
  rw [tryEmplace, if_neg hne]
  refine ⟨rfl, ⟨h.pow.pos, h.pow.lt, h.pow.capacity⟩, h.read, ?_, ?_, ?_⟩
  · rw [List.length_append, List.length_singleton, ← Nat.add_assoc, counter_succ, h.write]
  · rw [List.length_append, List.length_singleton]
    exact hlt
  · simp only [hslot]
    exact h.holds.push (by omega) _

lemma tryEmplace_eq_false_iff (h : r.Stores k m l) (v : α) :
    (r.tryEmplace v).2 = false ↔ l.length = 2 ^ k - 1 := by
  constructor
  · intro hfalse
    by_contra hne
    have hroom := h.room
    rw [(h.tryEmplace_of_lt (by omega) v).1] at hfalse
    cases hfalse
  · intro hfull
    rw [h.tryEmplace_full hfull]

lemma front_nil (h : r.Stores k m []) : r.front = none :=
  if_pos (h.entries_eq_zero_iff.mpr rfl)

/-- `front` points to the first value, and `pop` takes it out. -/
lemma front_cons (h : r.Stores k m (x :: l)) :
    ∃ p, r.front = some p ∧ r.data p = x ∧ r.pop.Stores k (m + 1) l := by
  have hslot : r.slot r.indexRead = m % 2 ^ k := by rw [h.read, h.pow.slot_eq]
  have hroom := h.room
  rw [List.length_cons] at hroom
  refine ⟨r.slot r.indexRead, ?_, ?_, ⟨h.pow.pos, h.pow.lt, h.pow.capacity⟩, ?_, ?_, ?_, ?_⟩
  · exact if_neg fun hzero => List.cons_ne_nil _ _ (h.entries_eq_zero_iff.mp hzero)
  · rw [hslot]
    exact h.holds 0 x rfl
  · rw [pop, h.read, counter_succ]
  · rw [pop, h.write, List.length_cons]
    congr 1
    omega
  · omega
  · simp only [pop, hslot]
    exact h.holds.pop (Nat.succ_pos _) (by rw [List.length_cons]; omega) none

lemma front_eq_none_iff (h : r.Stores k m l) : r.front = none ↔ l = [] := by
  cases l with
  | nil => simp only [h.front_nil]
  | cons x l =>
    obtain ⟨p, hfront, -⟩ := h.front_cons
    simp only [hfront, reduceCtorEq]

lemma batched_eq (h : r.Stores k m l) (hne : l ≠ []) (v : List (Option α)) :
    r.batched v = v ++ l := by
  have hpos : 0 < l.length := List.length_pos_iff.mpr hne
  have hcopies := h.pow.copies_eq (m := m) hpos h.room
  have hfill := foldl_set_range (fun i => r.data ((m + i) % 2 ^ k)) none v l.length []
  rw [List.append_nil, List.append_nil] at hfill
  rw [batched, h.read, h.write, hcopies, List.foldl_map, ← h.write, ← h.read, h.entries_toNat,
    hfill, h.holds.map_range]

lemma batchOut_nil (h : r.Stores k m []) (v : List (Option α)) : r.batchOut v = (r, v, false) :=
  if_pos (h.entries_eq_zero_iff.mpr rfl)

/-- `batch_out` takes everything out. -/
lemma batchOut_of_ne (h : r.Stores k m l) (hne : l ≠ []) (v : List (Option α)) :
    (r.batchOut v).2 = (v ++ l, true) ∧ (r.batchOut v).1.Stores k (m + l.length) [] := by
  have hentries : r.indexWrite - r.indexRead = counter 64 l.length := by
    rw [← h.entries_toNat, counter_toNat]
  rw [batchOut, if_neg (mt h.entries_eq_zero_iff.mp hne), h.batched_eq hne]
  refine ⟨rfl, ⟨h.pow.pos, h.pow.lt, h.pow.capacity⟩, ?_, h.write, Nat.zero_le _, holds_nil _ _ _⟩
  rw [hentries, h.read, counter_add]

lemma batchOut_eq_false_iff (h : r.Stores k m l) (v : List (Option α)) :
    (r.batchOut v).2.2 = false ↔ l = [] := by
  constructor
  · intro hfalse
    by_contra hne
    rw [(h.batchOut_of_ne hne v).1] at hfalse
    cases hfalse
  · rintro rfl
    rw [h.batchOut_nil]

/-- So does the loop of `front` and `pop`. -/
lemma drain_eq (h : r.Stores k m l) (v : List (Option α)) :
    ∃ r', r.drain (l.length + 1) v = some (r', v ++ l) ∧ r'.Stores k (m + l.length) [] ∧
      r'.indexWrite = r.indexWrite := by
  induction l generalizing r m v with
  | nil =>
    refine ⟨r, ?_, h, rfl⟩
    rw [drain, h.front_nil, List.append_nil]
  | cons x l ih =>
    obtain ⟨p, hfront, hdata, hpop⟩ := h.front_cons
    obtain ⟨r', hdrain, hstores, hwrite⟩ := ih hpop (v ++ [x])
    refine ⟨r', ?_, ?_, hwrite⟩
    · rw [List.length_cons, drain, hfront]
      simp only [hdata]
      rw [hdrain, List.append_assoc, List.singleton_append]
    · rw [List.length_cons, Nat.add_comm l.length, ← Nat.add_assoc]
      exact hstores

lemma size_eq (h : r.Stores k m l) : r.size = some (BitVec.ofNat 64 l.length) := by
  have hroom := h.room
  have htwo := h.pow.two_le
  have hentries : r.indexWrite - r.indexRead = counter 64 l.length := by
    rw [← h.entries_toNat, counter_toNat]
  -- The mask covers all bits of the number of entries.
  have hmask : counter 64 l.length &&& r.mask = counter 64 l.length := by
    have hslot : (counter 64 l.length &&& r.mask).toNat = l.length % 2 ^ k := h.pow.slot_eq _
    rw [← counter_toNat (counter 64 l.length &&& r.mask), hslot, Nat.mod_eq_of_lt (by omega)]
  have hzero : counter 64 l.length &&& ~~~r.mask = 0 := by
    rw [← hmask, BitVec.and_assoc, BitVec.and_not_self]
    exact BitVec.and_zero
  simp only [size, hentries]
  exact if_pos hzero

end Stores

/-! ## A bounded queue -/

/-- The calls that change a ring; `take` is `front`, and `pop` unless it is null. -/
inductive Call (α : Type)
  | tryEmplace (v : α)
  | take
  | batchOut (v : List (Option α))

inductive Answer (α : Type)
  | accepted (b : Bool)
  | value (x : Option (Option α))
  | vector (v : List (Option α)) (b : Bool)

def call (r : SpscRing α) : Call α → SpscRing α × Answer α
  | .tryEmplace v => ((r.tryEmplace v).1, .accepted (r.tryEmplace v).2)
  | .take => match r.front with
      | none => (r, .value none)
      | some p => (r.pop, .value (some (r.data p)))
  | .batchOut v => ((r.batchOut v).1, .vector (r.batchOut v).2.1 (r.batchOut v).2.2)

/-- What a ring is for: a queue of at most `room` values. -/
def queueCall (room : ℕ) (l : List (Option α)) : Call α → List (Option α) × Answer α
  | .tryEmplace v =>
      if l.length < room then (l ++ [some v], .accepted true) else (l, .accepted false)
  | .take => (l.tail, .value l.head?)
  | .batchOut v => ([], .vector (v ++ l) (!l.isEmpty))

variable {k m : ℕ} {r r' : SpscRing α} {l : List (Option α)}

/-- **One call** answers as the queue does. -/
lemma Stores.call_eq (h : ∃ m, r.Stores k m l) (c : Call α) :
    (r.call c).2 = (queueCall (2 ^ k - 1) l c).2 ∧
      ∃ m, (r.call c).1.Stores k m (queueCall (2 ^ k - 1) l c).1 := by
  obtain ⟨m, h⟩ := h
  cases c with
  | tryEmplace v =>
    simp only [call, queueCall]
    by_cases hlt : l.length < 2 ^ k - 1
    · obtain ⟨htrue, hstores⟩ := h.tryEmplace_of_lt hlt v
      rw [if_pos hlt, htrue]
      exact ⟨rfl, m, hstores⟩
    · have hroom := h.room
      rw [if_neg hlt, h.tryEmplace_full (by omega)]
      exact ⟨rfl, m, h⟩
  | take =>
    simp only [call, queueCall]
    cases l with
    | nil =>
      rw [h.front_nil]
      exact ⟨rfl, m, h⟩
    | cons x l =>
      obtain ⟨p, hfront, hdata, hpop⟩ := h.front_cons
      simp only [hfront, hdata]
      exact ⟨rfl, m + 1, hpop⟩
  | batchOut v =>
    simp only [call, queueCall]
    cases l with
    | nil =>
      rw [h.batchOut_nil, List.append_nil]
      exact ⟨rfl, m, h⟩
    | cons x l =>
      obtain ⟨hanswer, hstores⟩ := h.batchOut_of_ne (List.cons_ne_nil x l) v
      rw [hanswer]
      exact ⟨rfl, _, hstores⟩

/-- So does any list of calls. -/
lemma Stores.answers_eq (h : r.Stores k m l) (calls : List (Call α)) :
    (answers call r calls).2 = (answers (queueCall (2 ^ k - 1)) l calls).2 :=
  (answers_refines (R := fun r l => ∃ m, Stores k r m l) (fun _ _ c hr => call_eq hr c) calls
    ⟨m, h⟩).1

/-- Two rings in the same state: with the same members and the same values in the slots between
the indices, so that no calls tell them apart. -/
structure Same (r r' : SpscRing α) : Prop where
  capacity : r.capacity = r'.capacity
  indexWrite : r.indexWrite = r'.indexWrite
  indexRead : r.indexRead = r'.indexRead
  stored : r.stored = r'.stored
  answers : ∀ calls, (answers call r calls).2 = (answers call r' calls).2

/-- Rings with the same indices that store the same are in the same state. -/
lemma Stores.same (h : r.Stores k m l) (h' : r'.Stores k m l) : r.Same r' where
  capacity := h.pow.capacity.trans h'.pow.capacity.symm
  indexWrite := h.write.trans h'.write.symm
  indexRead := h.read.trans h'.read.symm
  stored := h.stored_eq.trans h'.stored_eq.symm
  answers calls := (h.answers_eq calls).trans (h'.answers_eq calls).symm

end SpscRing

namespace Spsc

open SpscRing

variable {α : Type}

/-! ### Calls as runs -/

section Runs

variable {s : State α} {v : α} {p : ℕ}

/-- A party that nobody interferes with takes these steps, and comes to what the call returns. -/
lemma run_tryEmplace_true (hidle : s.producer = .idle) (htrue : (s.ring.tryEmplace v).2 = true) :
    machine.run s [.producer (.tryEmplace v), .producer .loadRead, .producer .construct,
        .producer .publish]
      = some { s with
        ring := (s.ring.tryEmplace v).1
        enqueued := s.enqueued ++ [v] } := by
  have hne : ¬s.ring.freeEntries s.ring.indexRead s.ring.indexWrite = 0 := by
    intro hzero
    rw [tryEmplace, if_pos hzero] at htrue
    cases htrue
  simp only [machine, Machine.run, step, produce, hidle, if_neg hne, tryEmplace, Option.bind_some]

lemma run_take (hidle : s.consumer = .idle) (hsome : s.ring.front = some p) :
    machine.run s [.consumer .front, .consumer .loadWrite, .consumer .pop, .consumer .destroy,
        .consumer .release]
      = some { s with
        ring := s.ring.pop
        received := s.received ++ [s.ring.data p] } := by
  have hne : ¬s.ring.indexWrite - s.ring.indexRead = 0 := by
    intro hzero
    simp only [front, if_pos hzero, reduceCtorEq] at hsome
  have hp : s.ring.slot s.ring.indexRead = p := by
    simpa only [front, if_neg hne, Option.some_inj] using hsome
  obtain ⟨ring, producer, consumer, enqueued, received⟩ := s
  obtain rfl : consumer = .idle := hidle
  simp only [machine, Machine.run, step, consume, Consumer.Free, if_true, Option.bind_some,
    if_neg hne, pop, hp]

end Runs

/-! ### Every run -/

/-- In every state of every run the indices are as in a queue. -/
lemma exists_stores {size k : ℕ} (h₁ : 1 ≤ k) (h₂ : k < 64) {s : State α}
    (h : machine.Reachable (start size k) s) : ∃ m l, s.ring.Stores k m l := by
  obtain ⟨r, hinv⟩ := Machine.Reachable.invariant machine h (P := fun s => ∃ r, Inv k s r)
    ⟨0, inv_start size h₁ h₂⟩ (fun _ _ _ => step_inv)
  have hle := hinv.le
  have hroom := hinv.room
  obtain ⟨l, hl⟩ := SpscRing.exists_stores (e := s.enqueued.length - r) hinv.pow hinv.read
    (by rw [hinv.write]; congr 1; omega) (by omega)
  exact ⟨r, l, hl⟩

/-- **`batch_out` is the loop of `front` and `pop`**, in every state of every run: it appends the
same values, leaves the ring in the same state, and returns false if and only if there are none. -/
theorem batchOut_eq_drain (size k : ℕ) (h₁ : 1 ≤ k) (h₂ : k < 64) (s : State α)
    (h : machine.Reachable (start size k) s) (v : List (Option α)) :
    ∃ fuel r w, s.ring.drain fuel v = some (r, v ++ w) ∧
      (s.ring.batchOut v).2 = (v ++ w, !w.isEmpty) ∧ (s.ring.batchOut v).1.Same r := by
  obtain ⟨m, l, hl⟩ := exists_stores h₁ h₂ h
  obtain ⟨r, hdrain, hstores, -⟩ := hl.drain_eq v
  refine ⟨l.length + 1, r, l, hdrain, ?_⟩
  cases l with
  | nil =>
    rw [hl.batchOut_nil, List.append_nil]
    exact ⟨rfl, hl.same hstores⟩
  | cons x l =>
    obtain ⟨hanswer, hbatch⟩ := hl.batchOut_of_ne (List.cons_ne_nil x l) v
    exact ⟨hanswer, hbatch.same hstores⟩

/-- Four values are enqueued and one is taken out in between, which leaves the write index at the
end of the slots. -/
theorem batchOut_eq_drain_at_end :
    ∃ s : State ℕ, machine.run (start 8 2)
        [.producer (.emplace 5), .producer .loadRead, .producer .construct, .producer .publish,
          .producer (.emplace 6), .producer .loadRead, .producer .construct, .producer .publish,
          .producer (.emplace 7), .producer .loadRead, .producer .construct, .producer .publish,
          .consumer .front, .consumer .loadWrite, .consumer .pop, .consumer .destroy,
          .consumer .release, .producer (.tryEmplace 8), .producer .loadRead,
          .producer .construct, .producer .publish] = some s ∧
      s.ring.stored = [some 6, some 7, some 8] ∧
      ∃ fuel r w, s.ring.drain fuel [none] = some (r, [none] ++ w) ∧
        (s.ring.batchOut [none]).2 = ([none] ++ w, !w.isEmpty) ∧
        (s.ring.batchOut [none]).1.Same r := by
  have hrun : ((machine.run (start 8 2)
      [.producer (.emplace 5), .producer .loadRead, .producer .construct, .producer .publish,
        .producer (.emplace 6), .producer .loadRead, .producer .construct, .producer .publish,
        .producer (.emplace 7), .producer .loadRead, .producer .construct, .producer .publish,
        .consumer .front, .consumer .loadWrite, .consumer .pop, .consumer .destroy,
        .consumer .release, .producer (.tryEmplace 8), .producer .loadRead,
        .producer .construct, .producer .publish]).map fun s : State ℕ => s.ring.stored)
      = some [some 6, some 7, some 8] := by decide +kernel
  obtain ⟨s, hs, hstored⟩ := Option.map_eq_some_iff.mp hrun
  exact ⟨s, hs, hstored, batchOut_eq_drain 8 2 (by decide) (by decide) s ⟨_, hs⟩ [none]⟩

/-! ## The status queries -/

/-- `full` apart, the queries agree with the calls. -/
structure QueriesAgree (r : SpscRing α) (v : α) : Prop where
  size : (r.tryEmplace v).2 = false ↔ r.size = some r.getCapacity
  empty : r.empty = some true ↔ r.front = none
  front : ∀ w, r.front = none ↔ (r.batchOut w).2.2 = false
  asserts : r.size ≠ none

/-- All of them do. -/
def Agree (r : SpscRing α) (v : α) : Prop :=
  (r.full = true ↔ (r.tryEmplace v).2 = false) ∧ QueriesAgree r v

lemma queriesAgree {k m : ℕ} {r : SpscRing α} {l : List (Option α)} (h : r.Stores k m l) (v : α) :
    QueriesAgree r v where
  size := by
    have hlt := h.pow.pow_lt
    have hroom := h.room
    rw [h.tryEmplace_eq_false_iff, h.size_eq, getCapacity, h.pow.mask_eq, Option.some_inj,
      ← BitVec.toNat_inj, BitVec.toNat_ofNat, BitVec.toNat_ofNat, Nat.mod_eq_of_lt h.room_lt,
      Nat.mod_eq_of_lt (by omega)]
  empty := by
    have hzero : BitVec.ofNat 64 l.length = 0 ↔ l = [] := by
      rw [← BitVec.toNat_inj, BitVec.toNat_ofNat, Nat.mod_eq_of_lt h.room_lt]
      exact List.length_eq_zero_iff
    rw [h.front_eq_none_iff, ← hzero, empty, h.size_eq, Option.map_some, Option.some_inj,
      beq_iff_eq]
  front w := by rw [h.front_eq_none_iff, h.batchOut_eq_false_iff]
  asserts := by
    rw [h.size_eq]
    exact Option.some_ne_none _

/-- **`full` is the wrong way round** in every state of every run; everything else is right. -/
theorem full_inverted (size k : ℕ) (h₁ : 1 ≤ k) (h₂ : k < 64) (s : State α)
    (h : machine.Reachable (start size k) s) (v : α) :
    ¬Agree s.ring v ∧ (s.ring.full = true ↔ (s.ring.tryEmplace v).2 = true) ∧
      QueriesAgree s.ring v := by
  obtain ⟨m, l, hl⟩ := exists_stores h₁ h₂ h
  have hfull : s.ring.full = (s.ring.tryEmplace v).2 := by
    rw [full, tryEmplace]
    split <;> rfl
  refine ⟨fun hagree => ?_, by rw [hfull], queriesAgree hl v⟩
  have hflip := hagree.1
  rw [hfull, ← Bool.not_eq_true] at hflip
  exact iff_not_self hflip

/-- A ring of four slots that is full, with the three values it has room for. -/
theorem full_inverted_three_values :
    ∃ s : State ℕ, machine.run (start 8 2)
        [.producer (.emplace 5), .producer .loadRead, .producer .construct, .producer .publish,
          .producer (.emplace 6), .producer .loadRead, .producer .construct, .producer .publish,
          .producer (.emplace 7), .producer .loadRead, .producer .construct, .producer .publish]
        = some s ∧
      s.ring.size = some 3 ∧ ¬Agree s.ring 8 ∧
      (s.ring.full = true ↔ (s.ring.tryEmplace 8).2 = true) ∧ QueriesAgree s.ring 8 := by
  have hrun : ((machine.run (start 8 2)
      [.producer (.emplace 5), .producer .loadRead, .producer .construct, .producer .publish,
        .producer (.emplace 6), .producer .loadRead, .producer .construct, .producer .publish,
        .producer (.emplace 7), .producer .loadRead, .producer .construct, .producer .publish]).map
        fun s : State ℕ => s.ring.size) = some (some 3) := by decide +kernel
  obtain ⟨s, hs, hsize⟩ := Option.map_eq_some_iff.mp hrun
  exact ⟨s, hs, hsize, full_inverted 8 2 (by decide) (by decide) s ⟨_, hs⟩ 8⟩

/-- `full` returns true on a new ring, which accepts a value. -/
theorem full_fails_when_empty :
    ∃ s : State ℕ, machine.Reachable (start 8 2) s ∧ s.ring.full = true ∧
      (s.ring.tryEmplace 5).2 = true ∧ ¬Agree s.ring 5 := by
  have hfull : (start 8 2 : State ℕ).ring.full = true := by decide
  have haccepted : ((start 8 2 : State ℕ).ring.tryEmplace 5).2 = true := by decide
  refine ⟨start 8 2, ⟨[], rfl⟩, hfull, haccepted, fun hagree => ?_⟩
  have hrefused := hagree.1.mp hfull
  rw [haccepted] at hrefused
  cases hrefused

end Spsc

end Coring.Logging
