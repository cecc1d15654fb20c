import Coring.Framework.Machine
import Coring.Skiplist.Basic
import Coring.Timer.Clock

/-!
# The timer

This file embeds `coring::timer` of `include/coring/timer.hpp`: a queue of continuations,
ordered by the microsecond at which each is to be resumed.  `handle_events` resumes what has
expired in two rounds.  The first detaches the expired front part of the queue and resumes its
continuations in place, freeing each node after its continuation has returned; the second pops
whatever has expired in the meantime and resumes that.  A resumed continuation is arbitrary
code of the program and may register new timeouts while the call is in progress.

A call therefore does not run to its end in one step.  It is a machine whose positions (`Pc`)
are the places where a continuation is about to be resumed or is running, so that a run
interleaves it with the registrations of the continuations and with the passage of time.

Beside the queue the state keeps the history the results speak about: the wakeup points of all
registrations made, the registrations resumed with the clock reading of the call that resumed
them, and the last call.  No step depends on it.
-/

namespace Coring

/-- A coroutine handle. -/
abbrev Handle := ℕ

/-- `timer_token`, with the number of the registration it stands for. -/
structure TimerToken where
  continuation : Handle
  registration : ℕ
  deriving Repr, DecidableEq, Inhabited

/-- `timer_queue_t`. -/
abbrev TimerQueue := Skiplist Long TimerToken

namespace Timer

/-- Where `handle_events` is. -/
inductive Pc
  /-- Not called. -/
  | idle
  /-- In `do_less_eq_then_pop`, before the test of its loop; `sz` continuations have been
  resumed. -/
  | sweep (stampNow : Long) (cur : Option Addr) (sz : ℕ)
  /-- There, in the continuation of the node `cur`. -/
  | inSweep (stampNow : Long) (cur : Addr) (next : Option Addr) (sz : ℕ)
  /-- In the loop over the popped tokens, before its test. -/
  | drain (stampNow : Long) (toResume : List TimerToken) (sz : ℕ)
  /-- There, in a continuation; the argument are the tokens behind it. -/
  | inDrain (stampNow : Long) (toResume : List TimerToken) (sz : ℕ)
  deriving DecidableEq

/-- A call of `handle_events`, for the record. -/
structure CallRecord where
  /-- Its clock reading. -/
  stampNow : Long
  /-- How many registrations had been made before it. -/
  before : ℕ
  /-- How many resumptions had been made before it. -/
  since : ℕ

structure State where
  /-- The system clock. -/
  clock : Long
  /-- `timer_queue_`. -/
  queue : TimerQueue
  pc : Pc
  /-- What the last finished call of `handle_events` returned. -/
  returned : ℕ
  /-- The wakeup point of each registration, by its number. -/
  made : List ℤ
  /-- The registrations resumed so far and the clock reading of the call that did it. -/
  resumed : List (ℕ × Long)
  /-- The call in progress, or the last one. -/
  call : Option CallRecord

/-- A new timer at some time. -/
def start (clock : Long) : State :=
  ⟨clock, Skiplist.empty, .idle, 0, [], [], none⟩

inductive Action
  /-- Time passes. -/
  | tick (ns : ℕ)
  /-- `add_event`, with the level drawn for the new node. -/
  | addEvent (cont : Handle) (timeout : Long) (level : Level)
  /-- `handle_events` is called. -/
  | handleEvents
  /-- The next continuation is resumed. -/
  | resume
  /-- The running continuation returns, having finished or suspended itself. -/
  | suspend
  /-- The loop in progress ends. -/
  | finish

/-! ## Operations -/

/-- `has_more_timeouts`. -/
def hasMoreTimeouts (s : State) : Bool := !s.queue.isEmpty

/-- `get_next_expiration`. -/
def getNextExpiration (s : State) : Option Timespec := do
  let nd ← s.queue.mem (← (← s.queue.begin))
  let durDiff := Long.wrap (nd.key.1 - (stamp s.clock).1)
  some (makeTimespec (max (Long.wrap 0) durDiff))

/-- `add_event`. -/
def addEvent (s : State) (cont : Handle) (timeout : Long) (level : Level) : Option State := do
  let stampNow := stamp s.clock
  let wakeupPoint := Long.wrap (stampNow.1 + timeout.1)
  let (queue, _) ← s.queue.emplace wakeupPoint ⟨cont, s.made.length⟩ level
  some { s with queue := queue, made := s.made ++ [stampNow.1 + timeout.1] }

/-- The second round of `handle_events` begins: `pop_less_eq`. -/
def popExpired (s : State) (stampNow : Long) (sz : ℕ) : Option State := do
  let (queue, toResume) ← s.queue.popLessEq stampNow
  some { s with queue := queue, pc := .drain stampNow toResume sz }

/-- `handle_events` up to the first round: the early return, or the detaching of what has
expired. -/
def handleEvents (s : State) : Option State :=
  let stampNow := stamp s.clock
  let s := { s with call := some ⟨stampNow, s.made.length, s.resumed.length⟩ }
  if s.queue.isEmpty then some { s with returned := 0 }
  else do
    match ← s.queue.detachLessEq stampNow with
    | (queue, none) => popExpired { s with queue := queue } stampNow 0
    | (queue, some start) => some { s with queue := queue, pc := .sweep stampNow (some start) 0 }

/-- A continuation is resumed. -/
def resume (s : State) : Option State :=
  match s.pc with
  | .sweep stampNow (some cur) sz => do
      let next ← s.queue.next cur 0
      let nd ← s.queue.mem cur
      some { s with
        pc := .inSweep stampNow cur next (sz + 1)
        resumed := s.resumed ++ [(nd.val.registration, stampNow)] }
  | .drain stampNow (t :: toResume) sz =>
      some { s with
        pc := .inDrain stampNow toResume sz
        resumed := s.resumed ++ [(t.registration, stampNow)] }
  | _ => none

/-- The continuation returns; in the first round its node is now freed. -/
def suspend (s : State) : Option State :=
  match s.pc with
  | .inSweep stampNow cur next sz => do
      let queue ← s.queue.deallocate cur
      some { s with queue := queue, pc := .sweep stampNow next sz }
  | .inDrain stampNow toResume sz => some { s with pc := .drain stampNow toResume sz }
  | _ => none

/-- The first round ends, and the second begins; or the second ends, and the call returns. -/
def finish (s : State) : Option State :=
  match s.pc with
  | .sweep stampNow none sz => popExpired { s with queue := s.queue.finishSweep sz } stampNow sz
  | .drain _ [] sz => some { s with pc := .idle, returned := sz }
  | _ => none

/-! ## Runs -/

/-- Code of the program is running: between calls, or in a continuation. -/
def Pc.InProgram : Pc → Bool
  | .idle | .inSweep .. | .inDrain .. => true
  | .sweep .. | .drain .. => false

/-- When an action can be taken. -/
def Enabled (s : State) : Action → Prop
  | .tick ns => s.clock.1 + ns < 2 ^ 63
  | .addEvent .. => s.pc.InProgram = true
  | .handleEvents => s.pc = .idle
  | .resume => match s.pc with
      | .sweep _ (some _) _ | .drain _ (_ :: _) _ => True
      | _ => False
  | .suspend => s.pc.InProgram = true ∧ s.pc ≠ .idle
  | .finish => match s.pc with
      | .sweep _ none _ | .drain _ [] _ => True
      | _ => False

def step (s : State) : Action → Option State
  | .tick ns =>
      if h : s.clock.1 + ns < 2 ^ 63 then
        some { s with clock := ⟨s.clock.1 + ns, by have := s.clock.2; omega, h⟩ }
      else none
  | .addEvent cont timeout level =>
      if s.pc.InProgram then addEvent s cont timeout level else none
  | .handleEvents => if s.pc = .idle then handleEvents s else none
  | .resume => resume s
  | .suspend => suspend s
  | .finish => finish s

def machine : Machine State Action := ⟨step⟩

end Timer

end Coring
