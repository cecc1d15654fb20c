import Coring.Logging.Invariant

/-!
# One thread and a succession of loggers

`Coring.Logging.AsyncLogger` follows one logger from its construction to the return of one `stop`.
Here one thread constructs a logger, calls `run`, `append` and `stop` on it in any order and any
number of times, destroys it and constructs the next one.  Four pieces of state do not start anew
when this happens, and they are what this file is about.  A stop request stays: `stop_source_` is
never replaced.  The latch of `run` counts from one only once; to count down further has no
defined effect, and here the counter goes on below zero, as it does in practice.  The
thread-local `local_log_ring_ptr` outlives the logger whose list of rings holds the ring: the
next logger finds it set and registers nothing.  And the list of rings is the logger's own.

`Delivered` is what is asked at each return of `stop`, also of one called by `run` or by the
destructor: the entries appended since the last `run` are in the file.  `Lasting` is the condition
on an `append` under which it holds: `stop` has not been called on the logger yet, and the
thread's ring is not that of an earlier logger.
-/

namespace Coring.Logging

variable {τ : Type} {D : Datetime τ}

/-- An `async_logger`. -/
structure LoggerObject (D : Datetime τ) where
  state : LoggerState D
  /-- The state of its time buffer after construction. -/
  made : D.State
  /-- `thread_.joinable()`. -/
  joinable : Bool := false
  /-- The counter of `count_down_latch_`. -/
  latch : ℤ := 1
  /-- The thread has been created and not reached its `count_down`. -/
  counting : Bool := false
  /-- `run` has been called. -/
  ran : Bool := false
  /-- The entries for which `append` has returned since the last `run`. -/
  since : List (LogRingEntry τ) := []

/-- What called `stop`. -/
inductive StopCaller
  | program
  | run
  | destructor
  deriving DecidableEq

/-- Where the thread is, outside of an `append` to a ring of the present logger. -/
inductive CallerPc (τ : Type)
  | idle
  /-- In `append`, with a ring of an earlier logger. -/
  | emplaceBack (h : LogRingEntry τ)
  | notifyOne (h : LogRingEntry τ)
  /-- In `stop`. -/
  | requestStop (c : StopCaller)
  | forceFlush (c : StopCaller)
  | join (c : StopCaller)
  /-- `stop` has returned. -/
  | stopped (c : StopCaller)
  /-- In `run`, at the latch. -/
  | wait
  deriving DecidableEq

structure Life (D : Datetime τ) where
  object : Option (LoggerObject D) := none
  /-- The ring `local_log_ring_ptr` points to, if an earlier logger had it in its list. -/
  orphan : Option (List (LogRingEntry τ)) := none
  caller : CallerPc τ := .idle

namespace LoggerState

/-- `stop` goes on from one place to the next; a later call of it leaves what it finds. -/
def advance (s : LoggerState D) (pc pc' : StopPc) : LoggerState D :=
  if s.stop = pc then { s with stop := pc' } else s

/-- `stop` is called. -/
def enter (s : LoggerState D) : LoggerState D :=
  if s.stop = .notCalled then { s with stop := .called, before := s.returned } else s

end LoggerState

namespace LoggerObject

variable (o : LoggerObject D)

/-- An entry has been appended. -/
def record (h : LogRingEntry τ) : LoggerObject D :=
  { o with since := if o.ran then o.since ++ [h] else o.since }

/-- `run` creates the thread. -/
def startThread : LoggerObject D :=
  { o with joinable := true, counting := true, ran := true, since := [] }

/-- The thread is not in a call. -/
def atRest (caller : CallerPc τ) : Bool :=
  match caller, o.state.threads 0 with
  | .idle, .idle => true
  | _, _ => false

end LoggerObject

namespace Life

inductive Act (D : Datetime τ)
  | construct (d : D.State)
  | append (h : LogRingEntry τ)
  /-- A further step of `append`, on a ring of the present logger. -/
  | thread (a : LoggerState.ThreadAct τ)
  /-- A further step of `append`, on a ring of an earlier one. -/
  | orphan
  | run
  | stop
  | destroy
  /-- The next step of a `stop`. -/
  | stopping
  /-- What follows the return of `stop`. -/
  | proceed
  /-- The logging thread counts the latch down and enters the loop. -/
  | countDown
  /-- `run` gets past the latch. -/
  | wait
  | logger

variable (l : Life D) (o : LoggerObject D)

def withState (s : LoggerState D) : Life D := { l with object := some { o with state := s } }

def enterStop (c : StopCaller) : Life D :=
  { l.withState o o.state.enter with caller := .requestStop c }

def startThread : Life D := { l with object := some o.startThread, caller := .wait }

/-- `append` is called: a null pointer or a ring of this logger, or a ring of an earlier one. -/
def append (h : LogRingEntry τ) : Option (Life D) :=
  if o.atRest l.caller then
    match l.orphan with
    | none => (o.state.threadStep 0 (.append h)).map (l.withState o)
    | some _ => some { l with caller := .emplaceBack h }
  else none

def threadStep : LoggerState.ThreadAct τ → Option (Life D)
  | .append _ => none
  | .notifyOne =>
      match o.state.threads 0 with
      | .notifyOne h => (o.state.threadStep 0 .notifyOne).map (l.withState (o.record h))
      | _ => none
  | a => (o.state.threadStep 0 a).map (l.withState o)

def orphanStep : Option (Life D) :=
  match l.caller, l.orphan with
  | .emplaceBack h, some ring =>
      -- nobody takes anything out of this ring
      if ring.length < ringCapacity then
        some { l with orphan := some (ring ++ [h]), caller := .notifyOne h }
      else none
  | .notifyOne h, _ => some { l with object := some (o.record h), caller := .idle }
  | _, _ => none

def run : Option (Life D) :=
  if o.atRest l.caller then
    if o.joinable then some (l.enterStop o .run) else some (l.startThread o)
  else none

def call (c : StopCaller) : Option (Life D) :=
  if o.atRest l.caller then some (l.enterStop o c) else none

def stopStep : Option (Life D) :=
  match l.caller with
  | .requestStop c =>
      some { l.withState o (o.state.advance .called .requested) with caller := .forceFlush c }
  | .forceFlush c =>
      some { l.withState o { o.state.advance .requested .forced with forceFlush := true } with
        caller := .join c }
  | .join c =>
      if o.joinable = true → o.counting = false ∧ o.state.logger = .done then
        some { l with
          object := some { o with joinable := false, state := o.state.advance .forced .returned }
          caller := .stopped c }
      else none
  | _ => none

def proceed : Option (Life D) :=
  match l.caller with
  | .stopped .program => some { l with caller := .idle }
  | .stopped .run => some (l.startThread o)
  | .stopped .destructor =>
      some { object := none, caller := .idle
             orphan := if 0 ∈ o.state.logRings then some (o.state.ring 0) else l.orphan }
  | _ => none

def objectStep : Act D → Option (Life D)
  | .construct _ => none
  | .append h => l.append o h
  | .thread a => l.threadStep o a
  | .orphan => l.orphanStep o
  | .run => l.run o
  | .stop => l.call o .program
  | .destroy => l.call o .destructor
  | .stopping => l.stopStep o
  | .proceed => l.proceed o
  | .countDown =>
      if o.counting then
        some { l with object := some { o with
          counting := false, latch := o.latch - 1, state := { o.state with logger := .test } } }
      else none
  | .wait =>
      match l.caller with
      | .wait => if o.latch = 0 then some { l with caller := .idle } else none
      | _ => none
  | .logger => o.state.loggerStep.map (l.withState o)

def construct (d : D.State) : Option (Life D) :=
  match l.caller with
  | .idle => some { l with object := some { state := .start D d, made := d } }
  | _ => none

def step (a : Act D) : Option (Life D) :=
  match l.object with
  | some o => l.objectStep o a
  | none =>
      match a with
      | .construct d => l.construct d
      | _ => none

def machine : Machine (Life D) (Act D) := ⟨step⟩

/-- Whenever `stop` has returned, the file has got the text of entries that end with those
appended since the last `run`. -/
def Delivered (l : Life D) : Prop :=
  ∀ o c, l.object = some o → l.caller = .stopped c →
    ∃ entries : List (ℕ × LogRingEntry τ),
      o.state.output = (D.writeAll o.made (entries.map Prod.snd)).2 ∧
      o.since <:+ ofThread 0 entries

/-- An entry is appended to a logger that runs only before `stop` is called on it, and only with
a ring that is not of an earlier logger. -/
def Lasting (l : Life D) : Act D → Bool
  | .append _ => l.object.all fun o =>
      !o.ran || (l.orphan.isNone && o.state.stop = .notCalled)
  | _ => true

end Life

end Coring.Logging
