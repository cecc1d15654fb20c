import Coring.Framework.Ring

/-!
# The two rings of an `io_uring_context`

This file embeds what `include/coring/detail/io/io_uring_context.hpp` does with the queues it
shares with the kernel.  Of liburing it takes over what is documented: `io_uring_get_sqe`
returns the next free slot of the submission queue, or null when the queue is full;
`io_uring_submit` hands every queued slot to the kernel with its contents at that moment and
frees the slots; `io_uring_cq_advance` adds to the head of the completion ring.  The kernel is
not asked to poll the submission queue by itself.

The completion ring has `2 ^ k` entries and 32-bit counters that wrap around.  Nothing here
depends on the counters of the submission queue wrapping, and they are natural numbers.

A user data word is null, the mark of liburing's own timeouts, or the address of the `io_token`
of a coroutine that awaits the operation.
-/

namespace Coring.Uring

/-- The address of an `io_token`. -/
abbrev TokenPtr := ℕ

/-- `user_data`. -/
inductive UserData
  | null
  /-- `LIBURING_UDATA_TIMEOUT`. -/
  | udataTimeout
  | token (t : TokenPtr)
  deriving Repr, DecidableEq

inductive Opcode
  | recv
  | send
  | connect
  | linkTimeout
  /-- An operation that takes no part here. -/
  | other
  deriving Repr, DecidableEq

/-- `io_uring_sqe`; `link` is the flag `IOSQE_IO_LINK`. -/
structure Sqe where
  opcode : Opcode
  link : Bool
  userData : UserData
  deriving Repr, DecidableEq

/-- `io_uring_cqe`. -/
structure Cqe where
  userData : UserData
  res : ℤ
  flags : BitVec 32
  deriving Repr, DecidableEq

/-! ## The submission queue -/

structure SubmissionQueue where
  capacity : ℕ
  sqes : ℕ → Sqe
  sqeHead : ℕ
  sqeTail : ℕ

namespace SubmissionQueue

/-- `io_uring_get_sqe`: the queue with the slot taken, and its index. -/
def getSqe (q : SubmissionQueue) : Option (SubmissionQueue × ℕ) :=
  if q.sqeTail - q.sqeHead < q.capacity then
    some ({ q with sqeTail := q.sqeTail + 1 }, q.sqeTail % q.capacity)
  else none

/-- A write to a slot. -/
def modify (q : SubmissionQueue) (i : ℕ) (f : Sqe → Sqe) : SubmissionQueue :=
  { q with sqes := Function.update q.sqes i (f (q.sqes i)) }

/-- The contents of the queued slots, in their order. -/
def queued (q : SubmissionQueue) : List Sqe :=
  (List.range (q.sqeTail - q.sqeHead)).map fun i => q.sqes ((q.sqeHead + i) % q.capacity)

/-- `io_uring_submit`: the queue with its slots freed, and what the kernel was handed. -/
def submit (q : SubmissionQueue) : SubmissionQueue × List Sqe :=
  ({ q with sqeHead := q.sqeTail }, q.queued)

end SubmissionQueue

/-! ## The completion ring -/

structure CompletionQueue (k : Fin 32) where
  khead : BitVec 32
  ktail : BitVec 32
  cqes : ℕ → Cqe

namespace CompletionQueue

variable {k : Fin 32}

/-- The entry of a counter. -/
def cqe (q : CompletionQueue k) (head : BitVec 32) : Cqe := q.cqes (maskedSlot k head)

/-- `io_uring_cq_advance`. -/
def advance (q : CompletionQueue k) (nr : BitVec 32) : CompletionQueue k :=
  if nr ≠ 0 then { q with khead := q.khead + nr } else q

/-- The kernel adds an entry, if there is room for one. -/
def post (q : CompletionQueue k) (c : Cqe) : Option (CompletionQueue k) :=
  if (q.ktail - q.khead).toNat < 2 ^ k.1 then
    some { q with
      ktail := q.ktail + 1, cqes := Function.update q.cqes (maskedSlot k q.ktail) c }
  else none

end CompletionQueue

/-! ## The context -/

structure Context (k : Fin 32) where
  sq : SubmissionQueue
  cq : CompletionQueue k
  /-- `cqe_count`. -/
  cqeCount : BitVec 32
  /-- What the kernel has been handed, one list for each `io_uring_submit`. -/
  submissions : List (List Sqe)

namespace Context

variable {k : Fin 32}

/-- `io_uring_submit(&ring)`. -/
def submit (c : Context k) : Context k :=
  { c with sq := c.sq.submit.1, submissions := c.submissions ++ [c.sq.submit.2] }

/-- `io_uring_get_sqe_safe`, with the index of the slot; `none` if the loop has to go round
again. -/
def ioUringGetSqeSafe (c : Context k) : Option (Context k × ℕ) :=
  match c.sq.getSqe with
  | some (sq, i) => some ({ c with sq := sq }, i)
  | none => do
      let c := { c with cq := c.cq.advance c.cqeCount, cqeCount := 0 }
      let c := c.submit
      let (sq, i) ← c.sq.getSqe
      some ({ c with sq := sq }, i)

/-- A write to a slot of the submission queue. -/
def modify (c : Context k) (i : ℕ) (f : Sqe → Sqe) : Context k :=
  { c with sq := c.sq.modify i f }

/-! ### What `io_uring_get_sqe_safe` can do -/

/-- Either the queue has a free slot and nothing else happens, or it is full: then the entries
counted so far leave the completion ring, and all slots are handed over. -/
lemma ioUringGetSqeSafe_cases (c : Context k) (hcap : 0 < c.sq.capacity) :
    (c.sq.sqeTail - c.sq.sqeHead < c.sq.capacity ∧ c.ioUringGetSqeSafe =
      some ({ c with sq := { c.sq with sqeTail := c.sq.sqeTail + 1 } },
        c.sq.sqeTail % c.sq.capacity)) ∨
    (¬ c.sq.sqeTail - c.sq.sqeHead < c.sq.capacity ∧ c.ioUringGetSqeSafe =
      some (⟨{ c.sq with sqeHead := c.sq.sqeTail, sqeTail := c.sq.sqeTail + 1 },
        c.cq.advance c.cqeCount, 0, c.submissions ++ [c.sq.queued]⟩,
        c.sq.sqeTail % c.sq.capacity)) := by
  by_cases hfull : c.sq.sqeTail - c.sq.sqeHead < c.sq.capacity
  · refine .inl ⟨hfull, ?_⟩
    simp only [ioUringGetSqeSafe, SubmissionQueue.getSqe, if_pos hfull]
  · refine .inr ⟨hfull, ?_⟩
    simp only [ioUringGetSqeSafe, SubmissionQueue.getSqe, if_neg hfull, submit,
      SubmissionQueue.submit, Nat.sub_self, if_pos hcap, Option.bind_eq_bind, Option.bind_some]

end Context

end Coring.Uring
