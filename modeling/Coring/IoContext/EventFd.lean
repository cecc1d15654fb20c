import Coring.Framework.Machine
import Mathlib.Algebra.Group.Nat.Defs

/-!
# Stop requests through the event descriptor

Other threads talk to an `io_context` through one eventfd: `wakeup()` (and `submit()`) writes
`EV_WAKEUP_MSG`, `stop()` writes `EV_STOP_MSG`.  The descriptor adds up what is written, so the
coroutine `init_eventfd` reads one number for all messages since the last read, and tells a stop
from wakeups by its size.

This file embeds the two sides as one machine: writes of other threads, reads served by the
kernel, and the loop thread, which starts in `do_run`, resumes the reading coroutine when a
completion is handled, and leaves `do_run` when `stopped_` is set.  Of eventfd it takes over what
is documented: a write adds to a 64-bit counter, and blocks if the sum would be `2 ^ 64 - 1` or
more; a read blocks while the counter is zero, and otherwise returns it and resets it.

A context may be stopped by its own thread as well and run again.  A coroutine left over from an
earlier run is then resumed along with the new one, so there is a list of them.  Beside each
counter stands the list of messages it is the sum of.
-/

namespace Coring.EventFd

inductive Msg
  | wakeup
  | stop
  deriving Repr, DecidableEq

/-- `EV_STOP_MSG`. -/
def evStopMsg : BitVec 64 := 0x1fffffffffffffff

/-- `EV_WAKEUP_MSG`. -/
def evWakeupMsg : BitVec 64 := 0x1

/-- The number written for a message. -/
def Msg.value : Msg → BitVec 64
  | .wakeup => evWakeupMsg
  | .stop => evStopMsg

/-- Where an `init_eventfd` is. -/
inductive ReadPc
  /-- Its read is with the kernel. -/
  | reading
  /-- The read has completed with `msg`, the sum of `batch`. -/
  | completed (msg : BitVec 64) (batch : List Msg)
  | finished
  deriving Repr, DecidableEq

structure State where
  /-- The counter of the descriptor. -/
  counter : BitVec 64
  /-- The messages written since the last completed read. -/
  unread : List Msg
  readers : List ReadPc
  /-- `stopped_`. -/
  stopped : Bool
  /-- The loop thread is in `do_run`. -/
  running : Bool
  /-- All messages, in the order of their writes, -/
  written : List Msg
  /-- and those of each completed read. -/
  batches : List (List Msg)
  deriving Repr, DecidableEq

/-- A new context. -/
def start : State := ⟨0, [], [], true, false, [], []⟩

/-- The largest value of the counter. -/
def counterMax : ℕ := 2 ^ 64 - 2

/-- `notify(msg)`; no step if the write blocks. -/
def notify (s : State) (m : Msg) : Option State :=
  if s.counter.toNat + m.value.toNat ≤ counterMax then
    some { s with
      counter := s.counter + m.value
      unread := s.unread ++ [m]
      written := s.written ++ [m] }
  else none

/-- The loop of `init_eventfd` from its test on. -/
def nextRead (stopped : Bool) : ReadPc := if stopped then .finished else .reading

inductive Action
  /-- Another thread calls `wakeup()` or `submit()`, or `stop()`. -/
  | notify (m : Msg)
  /-- `do_run` sets `stopped_` to false and calls `init_eventfd`. -/
  | run
  /-- The kernel serves a read. -/
  | read (i : ℕ)
  /-- A completed read is handled. -/
  | resume (i : ℕ)
  /-- The loop thread calls `stop()`, or handles `SIGINT`. -/
  | stopHere
  /-- `do_run` returns. -/
  | leave
  deriving Repr, DecidableEq

def step (s : State) : Action → Option State
  | .notify m => notify s m
  | .run =>
      if s.running then none
      else some { s with
        stopped := false, running := true, readers := s.readers ++ [nextRead false] }
  | .read i =>
      match s.readers[i]? with
      | some .reading =>
          if s.counter = 0 then none
          else some { s with
            counter := 0
            unread := []
            readers := s.readers.set i (.completed s.counter s.unread)
            batches := s.batches ++ [s.unread] }
      | _ => none
  | .resume i =>
      match s.readers[i]? with
      | some (.completed msg _) =>
          if s.running then
            let stopped := if msg ≥ evStopMsg then true else s.stopped
            some { s with stopped := stopped, readers := s.readers.set i (nextRead stopped) }
          else none
      | _ => none
  | .stopHere => if s.running then some { s with stopped := true } else none
  | .leave => if s.running ∧ s.stopped then some { s with running := false } else none

def machine : Machine State Action := ⟨step⟩

/-- The limits on what is unread: fewer than `2 ^ 61 - 1` wakeups and at most seven stops. -/
def Bounded (s : State) : Action → Prop
  | .notify .wakeup => s.unread.count .wakeup + 1 < 2 ^ 61 - 1
  | .notify .stop => s.unread.count .stop + 1 ≤ 7
  | .run | .read _ | .resume _ | .stopHere | .leave => True

instance (s : State) : ∀ a, Decidable (Bounded s a)
  | .notify .wakeup => inferInstanceAs (Decidable (_ < _))
  | .notify .stop => inferInstanceAs (Decidable (_ ≤ _))
  | .run | .read _ | .resume _ | .stopHere | .leave => isTrue trivial

/-! ## Sums of messages -/

/-- The number a list of messages adds up to. -/
def total : List Msg → ℕ
  | [] => 0
  | m :: ms => m.value.toNat + total ms

/-- Messages that may be unread together. -/
def Few (ms : List Msg) : Prop := ms.count .wakeup < 2 ^ 61 - 1 ∧ ms.count .stop ≤ 7

lemma few_nil : Few [] := by
  constructor <;> decide

lemma total_append (ms : List Msg) (m : Msg) : total (ms ++ [m]) = total ms + m.value.toNat := by
  induction ms with
  | nil => simp only [List.nil_append, total, Nat.zero_add, Nat.add_zero]
  | cons m' ms ih => rw [List.cons_append, total, ih, total, Nat.add_assoc]

lemma total_eq (ms : List Msg) :
    total ms = ms.count .wakeup + ms.count .stop * (2 ^ 61 - 1) := by
  induction ms with
  | nil => rfl
  | cons m ms ih =>
    rw [total, ih]
    cases m with
    | wakeup =>
      have hv : Msg.wakeup.value.toNat = 1 := rfl
      rw [hv, List.count_cons_self, List.count_cons_of_ne (by decide)]
      omega
    | stop =>
      have hv : Msg.stop.value.toNat = 2 ^ 61 - 1 := rfl
      rw [hv, List.count_cons_self, List.count_cons_of_ne (by decide)]
      omega

/-- Eight times `EV_STOP_MSG` is as far as the counter goes. -/
lemma Few.total_le {ms : List Msg} (h : Few ms) : total ms ≤ counterMax := by
  obtain ⟨hw, hs⟩ := h
  rw [total_eq, counterMax]
  omega

/-- The size of the sum tells whether there is a stop among the messages. -/
lemma Few.stop_le_total_iff {ms : List Msg} (h : Few ms) :
    2 ^ 61 - 1 ≤ total ms ↔ Msg.stop ∈ ms := by
  obtain ⟨hw, -⟩ := h
  rw [total_eq, ← List.count_pos_iff]
  constructor
  · intro hle
    by_contra hzero
    omega
  · intro hpos
    omega

lemma few_append {s : State} {m : Msg} (h : Few s.unread) (hb : Bounded s (.notify m)) :
    Few (s.unread ++ [m]) := by
  obtain ⟨hw, hs⟩ := h
  cases m with
  | wakeup => exact ⟨by simpa [Bounded] using hb, by simpa using hs⟩
  | stop => exact ⟨by simpa using hw, by simpa [Bounded] using hb⟩

/-! ## The invariant -/

/-- A completed read holds the sum of few messages. -/
def ReadPc.Ok : ReadPc → Prop
  | .completed msg batch => msg.toNat = total batch ∧ Few batch
  | .reading | .finished => True

structure Inv (s : State) : Prop where
  counter : s.counter.toNat = total s.unread
  few : Few s.unread
  readers : ∀ pc ∈ s.readers, pc.Ok
  /-- A running context that is not stopped has a read under way. -/
  listening : s.running = true → s.stopped = false → ∃ pc ∈ s.readers, pc ≠ .finished
  conserved : s.written = s.batches.flatten ++ s.unread

lemma inv_start : Inv start where
  counter := rfl
  few := few_nil
  readers := by simp [start]
  listening := by simp [start]
  conserved := rfl

variable {s s' : State}

lemma notify_cases {m : Msg} (h : notify s m = some s') :
    s.counter.toNat + m.value.toNat ≤ counterMax ∧ s' = { s with
      counter := s.counter + m.value
      unread := s.unread ++ [m]
      written := s.written ++ [m] } := by
  simp only [notify] at h
  split at h
  · next hle => exact ⟨hle, (Option.some_inj.mp h).symm⟩
  · cases h

/-- Within the limits no write blocks. -/
lemma notify_succeeds (h : Inv s) {m : Msg} (hb : Bounded s (.notify m)) :
    ∃ s', notify s m = some s' := by
  have hle := (few_append h.few hb).total_le
  rw [total_append, ← h.counter] at hle
  exact ⟨_, if_pos hle⟩

lemma Inv.notify (h : Inv s) {m : Msg} (hb : Bounded s (.notify m))
    (hs : notify s m = some s') : Inv s' := by
  obtain ⟨hle, rfl⟩ := notify_cases hs
  refine ⟨?_, few_append h.few hb, h.readers, h.listening, ?_⟩
  · have hmod : (s.counter.toNat + m.value.toNat) % 2 ^ 64
        = s.counter.toNat + m.value.toNat := by
      rw [counterMax] at hle
      omega
    rw [BitVec.toNat_add, hmod, total_append, h.counter]
  · simp only [h.conserved, List.append_assoc]

lemma Inv.read (h : Inv s) {i : ℕ} (hi : s.readers[i]? = some .reading) :
    Inv { s with
      counter := 0
      unread := []
      readers := s.readers.set i (.completed s.counter s.unread)
      batches := s.batches ++ [s.unread] } where
  counter := rfl
  few := few_nil
  readers := by
    intro pc hpc
    rcases List.mem_or_eq_of_mem_set hpc with hmem | rfl
    · exact h.readers pc hmem
    · exact ⟨h.counter, h.few⟩
  listening := by
    intro _ _
    have hlt : i < s.readers.length := (List.getElem?_eq_some_iff.mp hi).1
    exact ⟨_, List.mem_set hlt _, by simp⟩
  conserved := by simp [h.conserved]

/-- What handling a completed read does to `stopped_`. -/
lemma stopped_eq {msg : BitVec 64} {batch : List Msg} (hok : (ReadPc.completed msg batch).Ok)
    (stopped : Bool) :
    (if msg ≥ evStopMsg then true else stopped) = (stopped || decide (Msg.stop ∈ batch)) := by
  have hge : msg ≥ evStopMsg ↔ Msg.stop ∈ batch := by
    rw [← hok.2.stop_le_total_iff, ← hok.1]
    exact BitVec.le_def
  by_cases hmem : Msg.stop ∈ batch
  · rw [if_pos (hge.mpr hmem)]
    simp [hmem]
  · rw [if_neg fun h => hmem (hge.mp h)]
    simp [hmem]

lemma Inv.resume (h : Inv s) {i : ℕ} (hi : i < s.readers.length) (stopped : Bool) :
    Inv { s with stopped := stopped, readers := s.readers.set i (nextRead stopped) } where
  counter := h.counter
  few := h.few
  readers := by
    intro pc hpc
    rcases List.mem_or_eq_of_mem_set hpc with hmem | rfl
    · exact h.readers pc hmem
    · cases stopped <;> trivial
  listening := by
    rintro _ rfl
    exact ⟨_, List.mem_set hi _, by simp [nextRead]⟩
  conserved := h.conserved

lemma step_inv {a : Action} (h : Inv s) (hb : Bounded s a) (hs : step s a = some s') :
    Inv s' := by
  cases a with
  | notify m => exact h.notify hb hs
  | run =>
    simp only [step] at hs
    split at hs
    · cases hs
    · rw [← Option.some_inj.mp hs]
      refine ⟨h.counter, h.few, ?_, ?_, h.conserved⟩
      · intro pc hpc
        rcases List.mem_append.mp hpc with hmem | hmem
        · exact h.readers pc hmem
        · rw [List.mem_singleton.mp hmem]
          trivial
      · intro _ _
        exact ⟨_, List.mem_append_right _ (List.mem_singleton_self _), by simp [nextRead]⟩
  | read i =>
    simp only [step] at hs
    split at hs
    · next hi =>
      split at hs
      · cases hs
      · rw [← Option.some_inj.mp hs]
        exact h.read hi
    · cases hs
  | resume i =>
    simp only [step] at hs
    split at hs
    · next hi =>
      split at hs
      · rw [← Option.some_inj.mp hs]
        exact h.resume (List.getElem?_eq_some_iff.mp hi).1 _
      · cases hs
    · cases hs
  | stopHere =>
    simp only [step] at hs
    split at hs
    · rw [← Option.some_inj.mp hs]
      exact ⟨h.counter, h.few, h.readers, by simp, h.conserved⟩
    · cases hs
  | leave =>
    simp only [step] at hs
    split at hs
    · rw [← Option.some_inj.mp hs]
      exact ⟨h.counter, h.few, h.readers, by simp, h.conserved⟩
    · cases hs

/-! ## Runs -/

/-- **Stop requests are neither lost nor invented.**  Take any run in which no more than the
limits is ever unread.  No write of it blocks.  Every message written is in the batch of exactly
one completed read or still unread, in the order of the writes.  While the context runs and is not
stopped, a read is under way.  And handling a completed read sets `stopped_` exactly when there is
a stop among the messages written since the read before it. -/
theorem stopped_iff_stop_written (as : List Action) (s : State)
    (hb : machine.Each Bounded start as) (hrun : machine.run start as = some s) :
    (∀ m, Bounded s (.notify m) → ∃ s', step s (.notify m) = some s') ∧
    s.written = s.batches.flatten ++ s.unread ∧
    (s.running = true → s.stopped = false → ∃ pc ∈ s.readers, pc ≠ .finished) ∧
    ∀ i msg batch, s.readers[i]? = some (.completed msg batch) → s.running = true →
      ∃ s', step s (.resume i) = some s' ∧
        s'.stopped = (s.stopped || decide (Msg.stop ∈ batch)) := by
  have hinv : Inv s := machine.run_invariant_of_each (fun _ _ _ => step_inv) inv_start hb hrun
  refine ⟨fun m hm => notify_succeeds hinv hm, hinv.conserved, hinv.listening, ?_⟩
  intro i msg batch hi hrunning
  have hok := hinv.readers _ (List.mem_of_getElem? hi)
  have hstep : step s (.resume i) = some { s with
      stopped := if msg ≥ evStopMsg then true else s.stopped
      readers := s.readers.set i (nextRead (if msg ≥ evStopMsg then true else s.stopped)) } := by
    simp only [step, hi, hrunning, if_true]
  exact ⟨_, hstep, stopped_eq hok s.stopped⟩

/-- Before the first run a wakeup, a stop and another wakeup are written; the first read takes the
three of them. -/
def stopAmongWakeups : List Action :=
  [.notify .wakeup, .notify .stop, .notify .wakeup, .run, .read 0]

theorem stopped_iff_stop_written_among_wakeups :
    ∃ s s', machine.run start stopAmongWakeups = some s ∧ s.stopped = false ∧
      step s (.resume 0) = some s' ∧ s'.stopped = true := by
  have hb : machine.Each Bounded start stopAmongWakeups := by decide
  obtain ⟨-, -, -, hresume⟩ := stopped_iff_stop_written stopAmongWakeups _ hb rfl
  obtain ⟨s', hs', hstopped⟩ := hresume 0 _ _ rfl rfl
  exact ⟨_, s', rfl, rfl, hs', hstopped⟩

end Coring.EventFd
