import Coring.Uring.Completions
import Mathlib.Data.List.Infix
import Mathlib.Data.List.Nodup
import Mathlib.Data.List.Range

/-!
# Operations with a linked timeout

`recv_some`, `send_some` and `connect_to` with a duration put two entries into the submission
queue: the operation itself, flagged to be linked with its successor, and a link timeout.  Then
the coroutine awaits the operation, and only now its token is written into the slot of the
first entry.  Taking the second slot may find the queue full and submit it, which happens
exactly when the first entry took the last free slot: the operation is then handed to the
kernel alone and without a token, the timeout follows in a submission of its own, and the token
is written into a slot that is no longer queued.  The coroutine is never resumed.

This file determines what each operation does to the entries handed over and queued, for
every fill level of the queue (`Context.withTimeout_spec`).
-/

namespace Coring.Uring

/-! ## The operations -/

namespace Context

variable {k : Fin 32}

/-- A slot is taken and filled; the constructor of `io_awaitable` leaves the user data null. -/
def prepare (c : Context k) (opcode : Opcode) (link : Bool) : Option (Context k × ℕ) := do
  let (c, i) ← c.ioUringGetSqeSafe
  some (c.modify i fun _ => ⟨opcode, link, .null⟩, i)

/-- `link_timeout`. -/
def linkTimeout (c : Context k) : Option (Context k) := do
  let (c, _) ← c.prepare .linkTimeout false
  some c

/-- `await_suspend`: the token is written into the slot. -/
def awaitSuspend (c : Context k) (i : ℕ) (t : TokenPtr) : Context k :=
  c.modify i fun sqe => { sqe with userData := .token t }

/-- The common body of the operations with a duration. -/
def withTimeout (c : Context k) (opcode : Opcode) (t : TokenPtr) : Option (Context k) := do
  let (c, i) ← c.prepare opcode true
  let c ← c.linkTimeout
  some (c.awaitSuspend i t)

/-- `recv_some(dst, nbytes, dur)`. -/
def recvSome (c : Context k) (t : TokenPtr) : Option (Context k) := c.withTimeout .recv t

/-- `send_some(dst, nbytes, dur)`. -/
def sendSome (c : Context k) (t : TokenPtr) : Option (Context k) := c.withTimeout .send t

/-- `connect_to(peer, dur)`. -/
def connectTo (c : Context k) (t : TokenPtr) : Option (Context k) := c.withTimeout .connect t

/-- An operation that is awaited without a timeout. -/
def awaitPlain (c : Context k) (opcode : Opcode) (t : TokenPtr) : Option (Context k) := do
  let (c, i) ← c.prepare opcode false
  some (c.awaitSuspend i t)

end Context

/-! ## The queue as a list -/

namespace SubmissionQueue

variable {q : SubmissionQueue} {e e' : Sqe}

/-- A slot is taken and filled. -/
def push (q : SubmissionQueue) (e : Sqe) : SubmissionQueue :=
  { q with
    sqes := Function.update q.sqes (q.sqeTail % q.capacity) e, sqeTail := q.sqeTail + 1 }

/-- All slots are free again. -/
def flushed (q : SubmissionQueue) : SubmissionQueue := { q with sqeHead := q.sqeTail }

/-- How many slots are queued. -/
def used (q : SubmissionQueue) : ℕ := q.sqeTail - q.sqeHead

/-- The counters are in order and the queue is not overfull. -/
structure Fits (q : SubmissionQueue) : Prop where
  capacity : 2 ≤ q.capacity
  order : q.sqeHead ≤ q.sqeTail
  used : q.used ≤ q.capacity

lemma queued_push (h : q.Fits) (hfree : q.used < q.capacity) :
    (q.push e).queued = q.queued ++ [e] := by
  have horder := h.order
  rw [used] at hfree
  have hlen : q.sqeTail + 1 - q.sqeHead = q.sqeTail - q.sqeHead + 1 := by omega
  simp only [queued, push, hlen, List.range_succ, List.map_append, List.map_cons, List.map_nil]
  congr 1
  · refine List.map_congr_left fun i hi => ?_
    have hi := List.mem_range.mp hi
    exact Function.update_of_ne (slot_ne (by omega) (by omega)) ..
  · rw [Nat.add_sub_cancel' horder, Function.update_self]

lemma queued_flushed (q : SubmissionQueue) : q.flushed.queued = [] := by
  simp [queued, flushed]

lemma Fits.push (h : q.Fits) (hfree : q.used < q.capacity) : (q.push e).Fits := by
  have horder := h.order
  rw [SubmissionQueue.used] at hfree
  refine ⟨h.capacity, ?_, ?_⟩
  · simp only [SubmissionQueue.push]
    omega
  · simp only [SubmissionQueue.used, SubmissionQueue.push]
    omega

lemma Fits.flushed (h : q.Fits) : q.flushed.Fits :=
  ⟨h.capacity, Nat.le_refl _, by simp [SubmissionQueue.used, SubmissionQueue.flushed]⟩

lemma used_flushed (q : SubmissionQueue) : q.flushed.used = 0 := Nat.sub_self _

lemma used_push (h : q.Fits) : (q.push e).used = q.used + 1 := by
  have := h.order
  simp only [used, push]
  omega

lemma tail_slot_ne (h : q.Fits) :
    q.sqeTail % q.capacity ≠ (q.sqeTail + 1) % q.capacity :=
  slot_ne (Nat.lt_succ_self _) (by have := h.capacity; omega)

/-- Writing to the last slot is the same as having pushed the final contents. -/
lemma push_modify (q : SubmissionQueue) (e : Sqe) (f : Sqe → Sqe) :
    (q.push e).modify (q.sqeTail % q.capacity) f = q.push (f e) := by
  simp only [push, modify, Function.update_self, Function.update_idem]

/-- Writing to the slot before the last is the same as having pushed the final contents. -/
lemma push_push_modify (h : q.Fits) (f : Sqe → Sqe) :
    ((q.push e).push e').modify (q.sqeTail % q.capacity) f = (q.push (f e)).push e' := by
  have hne := tail_slot_ne h
  simp only [push, modify, Function.update_of_ne hne, Function.update_self]
  congr 1
  rw [Function.update_comm hne, Function.update_idem, Function.update_comm hne.symm]

/-- Writing to a slot that is no longer queued changes nothing that is. -/
lemma queued_stale (h : q.Fits) (f : Sqe → Sqe) :
    (((q.push e).flushed.push e').modify (q.sqeTail % q.capacity) f).queued = [e'] := by
  have hne := tail_slot_ne h
  simp [queued, push, flushed, modify, hne.symm]

end SubmissionQueue

namespace Context

variable {k : Fin 32} {c c' c'' : Context k} {x y : List Sqe}

/-- All entries handed to the kernel, in order. -/
def handed (c : Context k) : List Sqe := c.submissions.flatten

/-- The submissions made, and the one that is being collected. -/
def batches (c : Context k) : List (List Sqe) := c.submissions ++ [c.sq.queued]

/-- All entries handed over or queued, in order. -/
def entries (c : Context k) : List Sqe := c.handed ++ c.sq.queued

/-- `c'` is `c` with the entries `x` added: nothing handed over changes, neighbours in one
submission stay neighbours, and the operation kept the queue in order. -/
structure Grows (c c' : Context k) (x : List Sqe) : Prop where
  fits : c'.sq.Fits
  handed : c.handed <+: c'.handed
  entries : c'.entries = c.entries ++ x
  batches : ∀ y, (∃ b ∈ c.batches, y <:+: b) → ∃ b ∈ c'.batches, y <:+: b

lemma Grows.trans (h : Grows c c' x) (h' : Grows c' c'' y) : Grows c c'' (x ++ y) where
  fits := h'.fits
  handed := h.handed.trans h'.handed
  entries := by rw [h'.entries, h.entries, List.append_assoc]
  batches := fun z hz => h'.batches z (h.batches z hz)

lemma grows_of_eq (h : c.sq.Fits) (hsq : c'.sq = c.sq) (hsub : c'.submissions = c.submissions) :
    Grows c c' [] where
  fits := by rw [hsq]; exact h
  handed := by rw [Context.handed, Context.handed, hsub]
  entries := by
    rw [Context.entries, Context.entries, Context.handed, Context.handed, hsub, hsq,
      List.append_nil]
  batches := by
    rw [Context.batches, Context.batches, hsub, hsq]
    exact fun _ h => h

lemma grows_submit (h : c.sq.Fits) : Grows c c.submit [] where
  fits := h.flushed
  handed := by
    simp only [submit, Context.handed, List.flatten_append]
    exact List.prefix_append _ _
  entries := by
    have hq : c.sq.submit.1.queued = [] := SubmissionQueue.queued_flushed c.sq
    simp only [Context.entries, Context.handed, submit, hq, List.append_nil,
      List.flatten_append, List.flatten_singleton]
    rfl
  batches := by
    rintro y ⟨b, hb, hy⟩
    exact ⟨b, List.mem_append_left _ hb, hy⟩

/-- The context with an entry pushed to its queue. -/
def pushed (c : Context k) (e : Sqe) : Context k := { c with sq := c.sq.push e }

/-- The context after `io_uring_get_sqe_safe` has found the queue full. -/
def advancedSubmit (c : Context k) : Context k :=
  { c.submit with cq := c.cq.advance c.cqeCount, cqeCount := 0 }

lemma grows_pushed (h : c.sq.Fits) (hfree : c.sq.used < c.sq.capacity) (e : Sqe) :
    Grows c (c.pushed e) [e] where
  fits := h.push hfree
  handed := List.prefix_refl _
  entries := by
    have hq : (c.pushed e).sq.queued = c.sq.queued ++ [e] := SubmissionQueue.queued_push h hfree
    rw [Context.entries, hq, ← List.append_assoc]
    rfl
  batches := by
    rintro y ⟨b, hb, hy⟩
    have hq : (c.pushed e).sq.queued = c.sq.queued ++ [e] := SubmissionQueue.queued_push h hfree
    rcases List.mem_append.mp hb with hb | hb
    · exact ⟨b, List.mem_append_left _ hb, hy⟩
    · rw [List.mem_singleton.mp hb] at hy
      refine ⟨c.sq.queued ++ [e], ?_, hy.trans (List.infix_append' [] _ _)⟩
      exact List.mem_append_right _ (List.mem_singleton.mpr hq.symm)

lemma grows_advancedSubmit (h : c.sq.Fits) : Grows c c.advancedSubmit [] :=
  ⟨(grows_submit h).fits, (grows_submit h).handed, (grows_submit h).entries,
    (grows_submit h).batches⟩

/-- Taking a slot and filling it is a push if there is a free one. -/
lemma prepare_of_free (h : c.sq.Fits) (hfree : c.sq.used < c.sq.capacity) (opcode : Opcode)
    (link : Bool) : c.prepare opcode link
      = some (c.pushed ⟨opcode, link, .null⟩, c.sq.sqeTail % c.sq.capacity) := by
  have hcap : 0 < c.sq.capacity := Nat.lt_of_lt_of_le (by decide) h.capacity
  rcases c.ioUringGetSqeSafe_cases hcap with ⟨-, hget⟩ | ⟨hfull, -⟩
  · rw [prepare, hget]
    rfl
  · exact absurd hfree hfull

/-- If the queue is full it is a push behind a submission. -/
lemma prepare_of_full (h : c.sq.Fits) (hfull : ¬ c.sq.used < c.sq.capacity) (opcode : Opcode)
    (link : Bool) : c.prepare opcode link
      = some (c.advancedSubmit.pushed ⟨opcode, link, .null⟩, c.sq.sqeTail % c.sq.capacity) := by
  have hcap : 0 < c.sq.capacity := Nat.lt_of_lt_of_le (by decide) h.capacity
  rcases c.ioUringGetSqeSafe_cases hcap with ⟨hfree, -⟩ | ⟨-, hget⟩
  · exact absurd hfree hfull
  · rw [prepare, hget]
    rfl

lemma used_advancedSubmit (c : Context k) : c.advancedSubmit.sq.used = 0 :=
  SubmissionQueue.used_flushed c.sq

/-- A write to a slot that is not queued does not show. -/
lemma Grows.congr (h : Grows c c' x) (hfits : c''.sq.Fits)
    (hsub : c''.submissions = c'.submissions) (hq : c''.sq.queued = c'.sq.queued) :
    Grows c c'' x := by
  refine ⟨hfits, ?_, ?_, ?_⟩
  · rw [Context.handed, Context.handed, hsub]
    exact h.handed
  · rw [← h.entries, Context.entries, Context.entries, Context.handed, Context.handed, hsub, hq]
  · intro y hy
    rw [Context.batches, hsub, hq]
    exact h.batches y hy

/-- The link timeout that follows an operation. -/
def timeoutSqe : Sqe := ⟨.linkTimeout, false, .null⟩

/-- Two entries pushed one after the other, and the first one's slot written to. -/
lemma linkTimeout_awaitSuspend (h : c.sq.Fits) (hfree : c.sq.used + 1 < c.sq.capacity)
    (opcode : Opcode) (t : TokenPtr) :
    ∃ c₂ c', (c.pushed ⟨opcode, true, .null⟩).linkTimeout = some c₂ ∧
      c₂.awaitSuspend (c.sq.sqeTail % c.sq.capacity) t = c' ∧
      Grows c c' [⟨opcode, true, .token t⟩, timeoutSqe] ∧
      ∃ b ∈ c'.batches, [⟨opcode, true, .token t⟩, timeoutSqe] <:+: b := by
  have hone : c.sq.used < c.sq.capacity := Nat.lt_of_succ_lt hfree
  have hfits : ∀ e, (c.pushed e).sq.Fits := fun e => h.push hone
  have hused : ∀ e, (c.pushed e).sq.used < (c.pushed e).sq.capacity := fun e => by
    rw [show (c.pushed e).sq.used = c.sq.used + 1 from SubmissionQueue.used_push h]
    exact hfree
  refine ⟨(c.pushed ⟨opcode, true, .null⟩).pushed timeoutSqe,
    (c.pushed ⟨opcode, true, .token t⟩).pushed timeoutSqe, ?_, ?_,
    (grows_pushed h hone _).trans (grows_pushed (hfits _) (hused _) timeoutSqe), ?_⟩
  · simp only [linkTimeout, prepare_of_free (hfits _) (hused _), Option.bind_eq_bind,
      Option.bind_some]
    rfl
  · simp only [awaitSuspend, Context.modify, pushed]
    rw [SubmissionQueue.push_push_modify h]
  · refine ⟨_, List.mem_append_right _ (List.mem_singleton_self _), ?_⟩
    have hq₁ : (c.pushed ⟨opcode, true, .token t⟩).sq.queued
        = c.sq.queued ++ [⟨opcode, true, .token t⟩] := SubmissionQueue.queued_push h hone
    have hq₂ : ((c.pushed ⟨opcode, true, .token t⟩).pushed timeoutSqe).sq.queued
        = (c.pushed ⟨opcode, true, .token t⟩).sq.queued ++ [timeoutSqe] :=
      SubmissionQueue.queued_push (hfits _) (hused _)
    rw [hq₂, hq₁, List.append_assoc]
    exact (List.suffix_append _ _).isInfix

/-- With the queue full, the timeout goes behind a submission, and the token into a slot that is
no longer queued. -/
lemma linkTimeout_awaitSuspend_stale (h : c.sq.Fits) (hlast : c.sq.used + 1 = c.sq.capacity)
    (opcode : Opcode) (t : TokenPtr) :
    ∃ c₂, (c.pushed ⟨opcode, true, .null⟩).linkTimeout = some c₂ ∧
      Grows c (c₂.awaitSuspend (c.sq.sqeTail % c.sq.capacity) t)
        [⟨opcode, true, .null⟩, timeoutSqe] := by
  have hone : c.sq.used < c.sq.capacity := by omega
  have hfits : (c.pushed ⟨opcode, true, .null⟩).sq.Fits := h.push hone
  have hfull : ¬ (c.pushed ⟨opcode, true, .null⟩).sq.used
      < (c.pushed ⟨opcode, true, .null⟩).sq.capacity := by
    rw [show (c.pushed ⟨opcode, true, .null⟩).sq.used = c.sq.used + 1 from
      SubmissionQueue.used_push h, hlast]
    exact Nat.lt_irrefl _
  have hsub := grows_advancedSubmit hfits
  have hfree : (c.pushed ⟨opcode, true, .null⟩).advancedSubmit.sq.used
      < (c.pushed ⟨opcode, true, .null⟩).advancedSubmit.sq.capacity := by
    rw [used_advancedSubmit]
    exact Nat.lt_of_lt_of_le (by decide) h.capacity
  have hpush := grows_pushed hsub.fits hfree timeoutSqe
  refine ⟨(c.pushed ⟨opcode, true, .null⟩).advancedSubmit.pushed timeoutSqe, ?_, ?_⟩
  · simp only [linkTimeout, prepare_of_full hfits hfull, Option.bind_eq_bind, Option.bind_some]
    rfl
  · refine (((grows_pushed h hone ⟨opcode, true, .null⟩).trans hsub).trans hpush).congr
      ⟨hpush.fits.capacity, hpush.fits.order, hpush.fits.used⟩ rfl ?_
    have hq : ((c.pushed ⟨opcode, true, .null⟩).advancedSubmit.pushed timeoutSqe).sq.queued
        = (c.pushed ⟨opcode, true, .null⟩).sq.flushed.queued ++ [timeoutSqe] :=
      SubmissionQueue.queued_push hsub.fits hfree
    rw [hq, SubmissionQueue.queued_flushed]
    exact SubmissionQueue.queued_stale h _

/-- **An operation with a linked timeout.**  Unless one slot is left, both entries are collected
side by side and the first carries the token; with one slot left, no entry carries it. -/
lemma withTimeout_spec (h : c.sq.Fits) (opcode : Opcode) (t : TokenPtr) :
    ∃ c', c.withTimeout opcode t = some c' ∧
      (c.sq.used ≠ c.sq.capacity - 1 →
        Grows c c' [⟨opcode, true, .token t⟩, timeoutSqe] ∧
        ∃ b ∈ c'.batches, [⟨opcode, true, .token t⟩, timeoutSqe] <:+: b) ∧
      (c.sq.used = c.sq.capacity - 1 → Grows c c' [⟨opcode, true, .null⟩, timeoutSqe]) := by
  have hcap := h.capacity
  have hused := h.used
  rcases Nat.lt_trichotomy (c.sq.used + 1) c.sq.capacity with hfree | hlast | hfull
  · -- Two slots are free.
    obtain ⟨c₂, c', hlink, hawait, hgrows⟩ := linkTimeout_awaitSuspend h hfree opcode t
    refine ⟨c', ?_, fun _ => hgrows, fun hc => by omega⟩
    simp only [withTimeout, prepare_of_free h (Nat.lt_of_succ_lt hfree), Option.bind_eq_bind,
      Option.bind_some, hlink, hawait]
  · -- One slot is free, and the second entry finds the queue full.
    obtain ⟨c₂, hlink, hgrows⟩ := linkTimeout_awaitSuspend_stale h hlast opcode t
    refine ⟨_, ?_, fun hc => absurd (by omega) hc, fun _ => hgrows⟩
    simp only [withTimeout, prepare_of_free h (by omega), Option.bind_eq_bind, Option.bind_some,
      hlink]
  · -- The first entry finds the queue full, and both follow the submission.
    have hsub := grows_advancedSubmit h
    have hfree : c.advancedSubmit.sq.used + 1 < c.advancedSubmit.sq.capacity := by
      rw [used_advancedSubmit]
      exact hcap
    obtain ⟨c₂, c', hlink, hawait, hgrows⟩ := linkTimeout_awaitSuspend hsub.fits hfree opcode t
    refine ⟨c', ?_, fun _ => ⟨hsub.trans hgrows.1, hgrows.2⟩, fun hc => by omega⟩
    simp only [withTimeout, prepare_of_full h (by omega), Option.bind_eq_bind, Option.bind_some,
      hlink]
    exact congrArg some hawait

/-- An entry nobody awaits. -/
lemma prepare_spec (h : c.sq.Fits) (opcode : Opcode) (link : Bool) :
    ∃ c', c.prepare opcode link = some (c', c.sq.sqeTail % c.sq.capacity) ∧
      Grows c c' [⟨opcode, link, .null⟩] := by
  by_cases hfree : c.sq.used < c.sq.capacity
  · exact ⟨_, prepare_of_free h hfree opcode link, grows_pushed h hfree _⟩
  · have hsub := grows_advancedSubmit h
    refine ⟨_, prepare_of_full h hfree opcode link, hsub.trans (grows_pushed hsub.fits ?_ _)⟩
    rw [used_advancedSubmit]
    exact Nat.lt_of_lt_of_le (by decide) h.capacity

/-- An operation awaited without a timeout: no slot is taken between its two writes. -/
lemma awaitPlain_spec (h : c.sq.Fits) (opcode : Opcode) (t : TokenPtr) :
    ∃ c', c.awaitPlain opcode t = some c' ∧ Grows c c' [⟨opcode, false, .token t⟩] := by
  have hwrite : ∀ d : Context k, (d.pushed ⟨opcode, false, .null⟩).awaitSuspend
      (d.sq.sqeTail % d.sq.capacity) t = d.pushed ⟨opcode, false, .token t⟩ := fun d => by
    simp only [awaitSuspend, Context.modify, pushed, SubmissionQueue.push_modify]
  by_cases hfree : c.sq.used < c.sq.capacity
  · refine ⟨_, ?_, grows_pushed h hfree _⟩
    simp only [awaitPlain, prepare_of_free h hfree, Option.bind_eq_bind, Option.bind_some, hwrite]
  · have hsub := grows_advancedSubmit h
    have hfree' : c.advancedSubmit.sq.used < c.advancedSubmit.sq.capacity := by
      rw [used_advancedSubmit]
      exact Nat.lt_of_lt_of_le (by decide) h.capacity
    refine ⟨_, ?_, hsub.trans (grows_pushed hsub.fits hfree' _)⟩
    simp only [awaitPlain, prepare_of_full h hfree, Option.bind_eq_bind, Option.bind_some]
    exact congrArg some (hwrite c.advancedSubmit)

end Context

end Coring.Uring
