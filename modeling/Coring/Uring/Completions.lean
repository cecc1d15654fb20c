import Coring.Framework.Machine
import Coring.Uring.Basic

/-!
# Every completion is delivered once

`handle_completions` walks over the completion ring with a cursor of its own and counts in
`cqe_count` the entries it has passed; the ring head is moved by that number at the end.  But
it may be moved earlier: the coroutine resumed by an entry may need a slot of a submission
queue that is full, and `io_uring_get_sqe_safe` then advances the ring head by the count so far
and resets it.  In the meantime the kernel adds entries wherever the ring has room.

The walk is a machine with these parties.  Its state records all entries that have been in the
ring (`posted`), how many of them the walk is done with (`passed`), and the calls of `resolve`
in their order.  The invariant is that the ring head plus the count is the cursor, and one more
while the body of the loop is executed.
-/

namespace Coring.Uring

/-- Where `handle_completions` is. -/
inductive Pc
  /-- Not called. -/
  | idle
  /-- Before the test of `io_uring_for_each_cqe`. -/
  | test (head : BitVec 32)
  /-- In its body, before `resolve` is called on a token. -/
  | body (head : BitVec 32) (t : TokenPtr)
  /-- In the coroutine that `resolve` has resumed. -/
  | resolved (head : BitVec 32)
  deriving DecidableEq

structure State (k : Fin 32) where
  ctx : Context k
  pc : Pc
  /-- All entries that were in the ring at first or have been added since, in order. -/
  posted : List Cqe
  /-- How many of them the walk is done with. -/
  passed : ℕ
  /-- The calls of `resolve`: token, result and flags. -/
  resolves : List (TokenPtr × ℤ × BitVec 32)

inductive Action
  /-- The kernel adds an entry. -/
  | post (c : Cqe)
  /-- `handle_completions` is called. -/
  | enter
  /-- The test of the loop, and on success the body up to the call of `resolve`. -/
  | next
  | resolve
  /-- The program takes a slot of the submission queue and fills it. -/
  | getSqe (sqe : Sqe)
  /-- The resumed coroutine returns. -/
  | suspend

variable {k : Fin 32}

/-- `next`: either the ring is exhausted and the call ends, or the entry is counted and its user
data looked at. -/
def next (s : State k) (head : BitVec 32) : State k :=
  if head ≠ s.ctx.cq.ktail then
    let s := { s with ctx := { s.ctx with cqeCount := s.ctx.cqeCount + 1 } }
    match (s.ctx.cq.cqe head).userData with
    | .token t => { s with pc := .body head t }
    | .null | .udataTimeout => { s with pc := .test (head + 1), passed := s.passed + 1 }
  else
    { s with
      ctx := { s.ctx with cq := s.ctx.cq.advance s.ctx.cqeCount, cqeCount := 0 }, pc := .idle }

/-- Code of the program is running. -/
def Pc.InProgram : Pc → Bool
  | .idle | .resolved _ => true
  | .test _ | .body .. => false

def step (s : State k) : Action → Option (State k)
  | .post c => do
      let cq ← s.ctx.cq.post c
      some { s with ctx := { s.ctx with cq := cq }, posted := s.posted ++ [c] }
  | .enter => if s.pc = .idle then some { s with pc := .test s.ctx.cq.khead } else none
  | .next => match s.pc with
      | .test head => some (next s head)
      | _ => none
  | .resolve => match s.pc with
      | .body head t =>
          let c := s.ctx.cq.cqe head
          some { s with pc := .resolved head, resolves := s.resolves ++ [(t, c.res, c.flags)] }
      | _ => none
  | .getSqe sqe =>
      if s.pc.InProgram then do
        let (ctx, i) ← s.ctx.ioUringGetSqeSafe
        some { s with ctx := ctx.modify i fun _ => sqe }
      else none
  | .suspend => match s.pc with
      | .resolved head => some { s with pc := .test (head + 1), passed := s.passed + 1 }
      | _ => none

def machine : Machine (State k) Action := ⟨step⟩

/-- A context between calls whose completion ring has been advanced `first` times and holds the
given entries. -/
structure Start (s : State k) (first : ℕ) : Prop where
  capacity : 0 < s.ctx.sq.capacity
  pc : s.pc = .idle
  count : s.ctx.cqeCount = 0
  passed : s.passed = 0
  resolves : s.resolves = []
  khead : s.ctx.cq.khead = counter 32 first
  ktail : s.ctx.cq.ktail = counter 32 (first + s.posted.length)
  room : s.posted.length ≤ 2 ^ k.1
  holds : Holds (2 ^ k.1) s.ctx.cq.cqes first s.posted

/-- The calls of `resolve` that a list of entries asks for. -/
def deliveries (cs : List Cqe) : List (TokenPtr × ℤ × BitVec 32) :=
  cs.filterMap fun c => match c.userData with
    | .token t => some (t, c.res, c.flags)
    | .null | .udataTimeout => none

/-- How many entries have been read, result and flags included. -/
def State.read (s : State k) : ℕ :=
  match s.pc with
  | .resolved _ => s.passed + 1
  | .idle | .test _ | .body .. => s.passed

/-! ## The invariant -/

/-- How far the cursor is ahead of the entries counted as passed. -/
def Pc.inBody : Pc → ℕ
  | .idle | .test _ => 0
  | .body .. | .resolved _ => 1

/-- The local head, if the walk is in progress. -/
def Pc.head : Pc → Option (BitVec 32)
  | .idle => none
  | .test head | .body head _ | .resolved head => some head

/-- After `first` advances at the beginning and `consumed` since, with `count` entries passed
and not yet advanced over. -/
structure Inv (first : ℕ) (s : State k) (consumed count : ℕ) : Prop where
  capacity : 0 < s.ctx.sq.capacity
  khead : s.ctx.cq.khead = counter 32 (first + consumed)
  ktail : s.ctx.cq.ktail = counter 32 (first + s.posted.length)
  room : s.posted.length ≤ consumed + 2 ^ k.1
  holds : Holds (2 ^ k.1) s.ctx.cq.cqes (first + consumed) (s.posted.drop consumed)
  cqeCount : s.ctx.cqeCount = counter 32 count
  balance : consumed + count = s.passed + s.pc.inBody
  passed : s.passed + s.pc.inBody ≤ s.posted.length
  idle : s.pc = .idle → count = 0
  head : ∀ head, s.pc.head = some head → head = counter 32 (first + s.passed)
  body : ∀ head t, s.pc = .body head t →
    1 ≤ count ∧ ∃ c, s.posted[s.passed]? = some c ∧ c.userData = .token t
  resolves : s.resolves = deliveries (s.posted.take s.read)

lemma Start.inv {s : State k} {first : ℕ} (h : Start s first) : Inv first s 0 0 where
  capacity := h.capacity
  khead := h.khead
  ktail := h.ktail
  room := by simpa using h.room
  holds := by simpa using h.holds
  cqeCount := h.count
  balance := by simp [h.passed, h.pc, Pc.inBody]
  passed := by simp [h.passed, h.pc, Pc.inBody]
  idle := fun _ => rfl
  head := by simp [h.pc, Pc.head]
  body := by simp [h.pc]
  resolves := by simp [h.resolves, State.read, h.pc, h.passed, deliveries]

variable {s s' : State k} {first consumed count : ℕ}

lemma ring_lt (k : Fin 32) : 2 ^ k.1 < 2 ^ 32 := Nat.pow_lt_pow_right (by decide) k.2

lemma maskedSlot_eq (k : Fin 32) (n : ℕ) : maskedSlot k.1 (counter 32 n) = n % 2 ^ k.1 :=
  maskedSlot_counter (Nat.le_of_lt k.2) n

lemma advance_khead (q : CompletionQueue k) (nr : BitVec 32) :
    q.advance nr = { q with khead := q.khead + nr } := by
  unfold CompletionQueue.advance
  split
  · rfl
  · next h =>
    rw [not_not.mp h]
    change q = { q with khead := q.khead + 0#32 }
    rw [BitVec.add_zero]

lemma deliveries_concat (cs : List Cqe) (c : Cqe) :
    deliveries (cs ++ [c]) = deliveries cs ++ deliveries [c] := List.filterMap_append ..

namespace Inv

lemma consumed_le (h : Inv first s consumed count) : consumed ≤ s.posted.length := by
  have h₁ := h.balance
  have h₂ := h.passed
  omega

lemma read_le (h : Inv first s consumed count) : s.read ≤ s.posted.length := by
  have hp := h.passed
  unfold State.read
  cases hpc : s.pc <;> rw [hpc, Pc.inBody] at hp <;> simp only <;> omega

/-- The ring head is not past an entry that has not been read. -/
lemma consumed_le_read (h : Inv first s consumed count) : consumed ≤ s.read := by
  have hb := h.balance
  unfold State.read
  cases hpc : s.pc with
  | body head t =>
    have hbody := (h.body head t hpc).1
    rw [hpc, Pc.inBody] at hb
    simp only
    omega
  | _ => rw [hpc, Pc.inBody] at hb; simp only; omega

/-- The entry under the cursor is the next one that was added. -/
lemma cqe_eq (h : Inv first s consumed count) {head : BitVec 32} (hhead : s.pc.head = some head)
    (hle : consumed ≤ s.passed) {c : Cqe} (hc : s.posted[s.passed]? = some c) :
    s.ctx.cq.cqe head = c := by
  rw [CompletionQueue.cqe, h.head head hhead, maskedSlot_eq]
  have hi : (s.posted.drop consumed)[s.passed - consumed]? = some c := by
    rw [List.getElem?_drop, Nat.add_sub_cancel' hle, hc]
  have := h.holds _ _ hi
  rwa [Nat.add_assoc, Nat.add_sub_cancel' hle] at this

/-- The cursor meets the tail exactly when all entries have been passed. -/
lemma head_eq_ktail_iff (h : Inv first s consumed count) {head : BitVec 32}
    (hhead : s.pc.head = some head) (hle : consumed ≤ s.passed) (hin : s.pc.inBody = 0) :
    head = s.ctx.cq.ktail ↔ s.passed = s.posted.length := by
  have hp := h.passed
  have hroom := h.room
  have hlt := ring_lt k
  rw [h.head head hhead, h.ktail, counter_inj (by omega) (by omega)]
  omega

/-! ## Steps -/

lemma post (h : Inv first s consumed count) {c : Cqe} (hs : step s (.post c) = some s') :
    Inv first s' consumed count := by
  have hle := h.consumed_le
  have hlt := ring_lt k
  have hread := h.read_le
  have hpassed := h.passed
  simp only [step, CompletionQueue.post, Option.bind_eq_bind] at hs
  split at hs
  · next hroom =>
    rw [h.ktail, h.khead, counter_sub (by omega) (by have := h.room; omega)] at hroom
    rw [Option.bind_some, Option.some_inj] at hs
    subst hs
    have hdrop : (s.posted ++ [c]).drop consumed = s.posted.drop consumed ++ [c] :=
      List.drop_append_of_le_length hle
    constructor
    case capacity => exact h.capacity
    case khead => exact h.khead
    case ktail =>
      simp only [h.ktail, List.length_append, List.length_singleton]
      rw [← counter_succ, Nat.add_assoc]
    case room =>
      simp only [List.length_append, List.length_singleton]
      omega
    case holds =>
      simp only [hdrop, h.ktail, maskedSlot_eq]
      have hpush := h.holds.push (by rw [List.length_drop]; omega) c
      rwa [List.length_drop, Nat.add_assoc, Nat.add_sub_cancel' hle] at hpush
    case cqeCount => exact h.cqeCount
    case balance => exact h.balance
    case passed =>
      simp only [List.length_append, List.length_singleton]
      omega
    case idle => exact h.idle
    case head => exact h.head
    case body =>
      intro head t hpc
      obtain ⟨hcount, c', hc', ht⟩ := h.body head t hpc
      refine ⟨hcount, c', ?_, ht⟩
      have hlt' := (List.getElem?_eq_some_iff.mp hc').1
      rw [← hc']
      exact List.getElem?_append_left hlt'
    case resolves =>
      change s.resolves = deliveries ((s.posted ++ [c]).take s.read)
      rw [List.take_append_of_le_length hread]
      exact h.resolves
  · cases hs

lemma enter (h : Inv first s consumed count) (hs : step s .enter = some s') :
    Inv first s' consumed count := by
  simp only [step] at hs
  split at hs
  · next hpc =>
    rw [Option.some_inj] at hs
    subst hs
    have hcount := h.idle hpc
    have hbal := h.balance
    have hpassed := h.passed
    have hres := h.resolves
    simp only [hpc, Pc.inBody, State.read] at hbal hpassed hres
    refine ⟨h.capacity, h.khead, h.ktail, h.room, h.holds, h.cqeCount, hbal, hpassed,
      by simp, ?_, by simp, hres⟩
    intro head hhead
    simp only [Pc.head, Option.some_inj] at hhead
    rw [← hhead, h.khead, show consumed = s.passed by omega]
  · cases hs

/-- The submission queue does not matter. -/
lemma withSq (h : Inv first s consumed count) {c : Context k} (hcq : c.cq = s.ctx.cq)
    (hcount : c.cqeCount = s.ctx.cqeCount) (hcap : 0 < c.sq.capacity) :
    Inv first { s with ctx := c } consumed count :=
  ⟨hcap, by rw [← h.khead, hcq], by rw [← h.ktail, hcq], h.room, by rw [hcq]; exact h.holds,
    by rw [← h.cqeCount, hcount], h.balance, h.passed, h.idle, h.head, h.body, h.resolves⟩

/-- All counted entries leave the ring. -/
lemma advanced (h : Inv first s consumed count) (hbody : ∀ head t, s.pc ≠ .body head t)
    (sq : SubmissionQueue) (hsq : 0 < sq.capacity) (submissions : List (List Sqe)) :
    Inv first { s with
      ctx := ⟨sq, s.ctx.cq.advance s.ctx.cqeCount, 0, submissions⟩ } (consumed + count) 0 := by
  have hbal := h.balance
  have hroom := h.room
  refine ⟨hsq, ?_, ?_, by simp only; omega, ?_, rfl, hbal, h.passed, fun _ => rfl, h.head, ?_,
    h.resolves⟩
  · simp only [advance_khead, h.khead, h.cqeCount]
    rw [← counter_add, Nat.add_assoc]
  · simp only [advance_khead, h.ktail]
  · simp only [advance_khead]
    have hdrop := h.holds.drop count
    rwa [List.drop_drop, Nat.add_assoc] at hdrop
  · exact fun head t hpc => absurd hpc (hbody head t)

lemma next (h : Inv first s consumed count) {head : BitVec 32} (hpc : s.pc = .test head) :
    ∃ consumed' count', Inv first (Uring.next s head) consumed' count' := by
  have hbal := h.balance
  have hpassed := h.passed
  have hres := h.resolves
  have hle : consumed ≤ s.passed := by simp only [hpc, Pc.inBody] at hbal; omega
  have hhead : s.pc.head = some head := by rw [hpc]; rfl
  have hiff := h.head_eq_ktail_iff hhead hle (by rw [hpc]; rfl)
  have hheadEq := h.head head hhead
  unfold Uring.next
  by_cases hend : head = s.ctx.cq.ktail
  · rw [if_neg (not_not.mpr hend)]
    refine ⟨consumed + count, 0, ?_⟩
    have hadv := h.advanced (by simp [hpc]) s.ctx.sq h.capacity s.ctx.submissions
    simp only [hpc, Pc.inBody, State.read] at hbal hpassed hres
    exact ⟨hadv.capacity, hadv.khead, hadv.ktail, hadv.room, hadv.holds, rfl,
      by simpa [Pc.inBody] using hbal, by simpa [Pc.inBody] using hpassed, fun _ => rfl,
      by simp [Pc.head], by simp, hres⟩
  · rw [if_pos hend]
    have hlt : s.passed < s.posted.length := by
      have hne := mt hiff.mpr hend
      simp only [hpc, Pc.inBody] at hpassed
      omega
    have hcount : s.ctx.cqeCount + 1 = counter 32 (count + 1) := by
      rw [h.cqeCount, counter_succ]
    have hc : s.posted[s.passed]? = some s.posted[s.passed] := List.getElem?_eq_getElem hlt
    have hcqe := h.cqe_eq hhead hle hc
    simp only [hpc, Pc.inBody, State.read] at hbal hpassed hres
    -- What the body does with an entry that is not resolved.
    have hskip : deliveries [s.posted[s.passed]] = [] → Inv first { s with
        ctx := { s.ctx with cqeCount := s.ctx.cqeCount + 1 }, pc := .test (head + 1),
        passed := s.passed + 1 } consumed (count + 1) := by
      intro hnone
      refine ⟨h.capacity, h.khead, h.ktail, h.room, h.holds, hcount, ?_, ?_, by simp, ?_, by simp,
        ?_⟩
      · simp only [Pc.inBody]
        omega
      · simp only [Pc.inBody]
        omega
      · intro head' hhead'
        simp only [Pc.head, Option.some_inj] at hhead'
        rw [← hhead', hheadEq, ← counter_succ, Nat.add_assoc]
      · simp only [State.read]
        rw [hres, List.take_succ_eq_append_getElem hlt, deliveries_concat, hnone, List.append_nil]
    have hcqe' : CompletionQueue.cqe s.ctx.cq head = s.posted[s.passed] := hcqe
    simp only [hcqe']
    cases hud : s.posted[s.passed].userData with
    | null => exact ⟨consumed, count + 1, hskip (by simp [deliveries, hud])⟩
    | udataTimeout => exact ⟨consumed, count + 1, hskip (by simp [deliveries, hud])⟩
    | token t =>
      refine ⟨consumed, count + 1, h.capacity, h.khead, h.ktail, h.room, h.holds, hcount, ?_, ?_,
        by simp, ?_, ?_, ?_⟩
      · simp only [Pc.inBody]
        omega
      · simp only [Pc.inBody]
        omega
      · intro head' hhead'
        simp only [Pc.head, Option.some_inj] at hhead'
        rw [← hhead', hheadEq]
      · rintro head' t' hpc'
        simp only [Pc.body.injEq] at hpc'
        exact ⟨by omega, _, hc, hpc'.2 ▸ hud⟩
      · exact hres

/-- The walk ends at the tail, with the ring head at the cursor. -/
lemma next_idle (h : Inv first s consumed count) {head : BitVec 32} (hpc : s.pc = .test head)
    (hidle : (Uring.next s head).pc = .idle) :
    (Uring.next s head).ctx.cq.khead = head ∧ (Uring.next s head).ctx.cqeCount = 0 ∧
      (Uring.next s head).passed = (Uring.next s head).posted.length := by
  have hhead : s.pc.head = some head := by rw [hpc]; rfl
  have hbal := h.balance
  rw [hpc, Pc.inBody] at hbal
  have hiff := h.head_eq_ktail_iff hhead (by omega) (by rw [hpc]; rfl)
  unfold Uring.next at hidle ⊢
  by_cases hend : head = s.ctx.cq.ktail
  · rw [if_neg (not_not.mpr hend)]
    refine ⟨?_, rfl, hiff.mp hend⟩
    simp only [advance_khead, h.khead, h.cqeCount]
    rw [← counter_add, h.head head hhead, Nat.add_assoc, hbal, Nat.add_zero]
  · rw [if_pos hend] at hidle
    simp only at hidle
    split at hidle <;> cases hidle

lemma resolve (h : Inv first s consumed count) (hs : step s .resolve = some s') :
    Inv first s' consumed count := by
  simp only [step] at hs
  split at hs
  · next head t hpc =>
    rw [Option.some_inj] at hs
    subst hs
    obtain ⟨hcount, c, hc, ht⟩ := h.body head t hpc
    have hbal := h.balance
    have hpassed := h.passed
    have hres := h.resolves
    have hheadEq := h.head head (by rw [hpc]; rfl)
    simp only [hpc, Pc.inBody, State.read] at hbal hpassed hres
    have hcqe := h.cqe_eq (by rw [hpc]; rfl) (by omega) hc
    obtain ⟨hlt, hget⟩ := List.getElem?_eq_some_iff.mp hc
    refine ⟨h.capacity, h.khead, h.ktail, h.room, h.holds, h.cqeCount, hbal, hpassed, by simp, ?_,
      by simp, ?_⟩
    · intro head' hhead'
      simp only [Pc.head, Option.some_inj] at hhead'
      rw [← hhead', hheadEq]
    · simp only [State.read, hcqe]
      rw [hres, List.take_succ_eq_append_getElem hlt, deliveries_concat, hget]
      simp [deliveries, ht]
  · cases hs

lemma suspend (h : Inv first s consumed count) (hs : step s .suspend = some s') :
    Inv first s' consumed count := by
  simp only [step] at hs
  split at hs
  · next head hpc =>
    rw [Option.some_inj] at hs
    subst hs
    have hbal := h.balance
    have hpassed := h.passed
    have hres := h.resolves
    have hheadEq := h.head head (by rw [hpc]; rfl)
    simp only [hpc, Pc.inBody, State.read] at hbal hpassed hres
    refine ⟨h.capacity, h.khead, h.ktail, h.room, h.holds, h.cqeCount, hbal, hpassed, by simp, ?_,
      by simp, hres⟩
    intro head' hhead'
    simp only [Pc.head, Option.some_inj] at hhead'
    rw [← hhead', hheadEq, ← counter_succ, Nat.add_assoc]
  · cases hs

/-- Taking a slot, early advance included. -/
lemma getSqe (h : Inv first s consumed count) (hpc : s.pc.InProgram = true) :
    ∃ ctx i, s.ctx.ioUringGetSqeSafe = some (ctx, i) ∧ ∀ f,
      ∃ consumed' count', Inv first { s with ctx := ctx.modify i f } consumed' count' := by
  have hbody : ∀ head t, s.pc ≠ .body head t := fun head t hc => by
    rw [hc] at hpc
    cases hpc
  rcases s.ctx.ioUringGetSqeSafe_cases h.capacity with ⟨-, hget⟩ | ⟨-, hget⟩
  · exact ⟨_, _, hget, fun f => ⟨consumed, count, h.withSq rfl rfl h.capacity⟩⟩
  · refine ⟨_, _, hget, fun f => ⟨consumed + count, 0, ?_⟩⟩
    exact h.advanced hbody (SubmissionQueue.modify
      { s.ctx.sq with sqeHead := s.ctx.sq.sqeTail, sqeTail := s.ctx.sq.sqeTail + 1 } _ f)
      h.capacity _

end Inv

/-- The steps of the walk leave the submission queue and the added entries alone. -/
lemma step_frame {a : Action} (hpost : ∀ c, a ≠ .post c) (hget : ∀ sqe, a ≠ .getSqe sqe)
    (hs : step s a = some s') : s'.ctx.sq = s.ctx.sq ∧ s'.ctx.submissions = s.ctx.submissions ∧
      s'.posted = s.posted := by
  cases a with
  | post c => exact absurd rfl (hpost c)
  | getSqe sqe => exact absurd rfl (hget sqe)
  | enter =>
    simp only [step] at hs
    split at hs
    · rw [← Option.some_inj.mp hs]
      exact ⟨rfl, rfl, rfl⟩
    · cases hs
  | next =>
    simp only [step] at hs
    split at hs
    · rw [← Option.some_inj.mp hs]
      unfold next
      split
      · simp only
        split <;> exact ⟨rfl, rfl, rfl⟩
      · exact ⟨rfl, rfl, rfl⟩
    · cases hs
  | resolve =>
    simp only [step] at hs
    split at hs
    · rw [← Option.some_inj.mp hs]
      exact ⟨rfl, rfl, rfl⟩
    · cases hs
  | suspend =>
    simp only [step] at hs
    split at hs
    · rw [← Option.some_inj.mp hs]
      exact ⟨rfl, rfl, rfl⟩
    · cases hs

lemma step_inv {a : Action} (h : ∃ consumed count, Inv first s consumed count)
    (hs : step s a = some s') : ∃ consumed count, Inv first s' consumed count := by
  obtain ⟨consumed, count, h⟩ := h
  cases a with
  | post c => exact ⟨consumed, count, h.post hs⟩
  | enter => exact ⟨consumed, count, h.enter hs⟩
  | next =>
    simp only [step] at hs
    split at hs
    · next head hpc =>
      rw [← Option.some_inj.mp hs]
      exact h.next hpc
    · cases hs
  | resolve => exact ⟨consumed, count, h.resolve hs⟩
  | getSqe sqe =>
    simp only [step] at hs
    split at hs
    · next hpc =>
      obtain ⟨ctx, i, hget, hinv⟩ := h.getSqe hpc
      simp only [hget, Option.bind_eq_bind, Option.bind_some, Option.some_inj] at hs
      rw [← hs]
      exact hinv _
    · cases hs
  | suspend => exact ⟨consumed, count, h.suspend hs⟩

/-- **Each completion is delivered once.**  Started on any contents of the completion ring, in
every state reached: `resolve` has been called once for every entry read that carries a token,
in the order of the ring and with the entry's own result and flags; the ring head has not moved
past an entry that has not been read, nor lags behind by more than the ring holds; between calls the
ring head stands behind the last entry passed and the count is zero; and when the walk ends, the
ring head is its cursor. -/
theorem completions_delivered_once (first : ℕ) (s₀ s : State k) (h₀ : Start s₀ first)
    (h : machine.Reachable s₀ s) :
    s.resolves = deliveries (s.posted.take s.read) ∧
    (∃ consumed ≤ s.read, s.posted.length ≤ consumed + 2 ^ k.1 ∧
      s.ctx.cq.khead = counter 32 (first + consumed)) ∧
    (s.pc = .idle → s.ctx.cq.khead = counter 32 (first + s.passed) ∧ s.ctx.cqeCount = 0) ∧
    (∀ head, s.pc = .test head → ∀ s', step s .next = some s' → s'.pc = .idle →
      s'.ctx.cq.khead = head ∧ s'.ctx.cqeCount = 0 ∧ s'.passed = s'.posted.length) ∧
    ∀ sqe, s.pc.InProgram = true → ∃ s', step s (.getSqe sqe) = some s' := by
  obtain ⟨consumed, count, hinv⟩ := Machine.Reachable.invariant machine h
    (P := fun s => ∃ consumed count, Inv first s consumed count) ⟨0, 0, h₀.inv⟩
    (fun _ _ _ => step_inv)
  refine ⟨hinv.resolves, ⟨consumed, hinv.consumed_le_read, hinv.room, hinv.khead⟩, fun hpc => ?_,
    fun head hpc s' hs hidle => ?_, fun sqe hpc => ?_⟩
  · have hcount := hinv.idle hpc
    have hbal := hinv.balance
    rw [hpc, Pc.inBody] at hbal
    refine ⟨?_, by rw [hinv.cqeCount, hcount]; rfl⟩
    rw [hinv.khead, show consumed = s.passed by omega]
  · simp only [step, hpc, Option.some_inj] at hs
    rw [← hs] at hidle ⊢
    exact hinv.next_idle hpc hidle
  · obtain ⟨ctx, i, hget, -⟩ := hinv.getSqe hpc
    simp only [step, hpc, if_true, hget, Option.bind_eq_bind, Option.bind_some]
    exact ⟨_, rfl⟩

/-- A ring of two entries whose counters are about to wrap around, with one token in it; the
submission queue is full. -/
def wrapping : State 1 where
  ctx :=
    { sq := ⟨1, fun _ => ⟨.other, false, .null⟩, 0, 1⟩
      cq := ⟨BitVec.ofNat 32 (2 ^ 32 - 1), 0, fun _ => ⟨.token 5, 64, 0⟩⟩
      cqeCount := 0
      submissions := [] }
  pc := .idle
  posted := [⟨.token 5, 64, 0⟩]
  passed := 0
  resolves := []

/-- The resumed coroutine finds the submission queue full, the kernel adds an entry, and the
walk delivers both. -/
theorem completions_delivered_once_wrapping :
    ∃ s, machine.run wrapping [.enter, .next, .resolve, .getSqe ⟨.other, false, .null⟩,
        .post ⟨.token 6, -1, 0⟩, .suspend, .next, .resolve, .suspend, .next] = some s ∧
      s.resolves = [(5, 64, 0), (6, -1, 0)] ∧ s.ctx.cqeCount = 0 := by
  have hrun : (machine.run wrapping [.enter, .next, .resolve, .getSqe ⟨.other, false, .null⟩,
      .post ⟨.token 6, -1, 0⟩, .suspend, .next, .resolve, .suspend, .next]).map
      (fun s => (s.posted, s.read, s.pc)) =
      some ([⟨.token 5, 64, 0⟩, ⟨.token 6, -1, 0⟩], 2, .idle) := by decide +kernel
  obtain ⟨s, hs, heq⟩ := Option.map_eq_some_iff.mp hrun
  simp only [Prod.mk.injEq] at heq
  have hstart : Start wrapping (2 ^ 32 - 1) :=
    ⟨by decide, rfl, rfl, rfl, rfl, rfl, by decide, by decide,
      fun i a hi => by
        match i with
        | 0 => exact Option.some_inj.mp hi
        | i + 1 => cases hi⟩
  obtain ⟨hres, -, hidle, -⟩ := completions_delivered_once _ _ s hstart ⟨_, hs⟩
  refine ⟨s, hs, ?_, (hidle heq.2.2).2⟩
  rw [hres, heq.1, heq.2.1]
  rfl

end Coring.Uring
