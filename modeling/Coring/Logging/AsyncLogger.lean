import Coring.Framework.Machine
import Mathlib.Data.Int.Notation
import Mathlib.Data.Nat.Notation
import Mathlib.Logic.Function.Basic

/-!
# The asynchronous logger

This file embeds `source/logging/async_logger.cpp` and the writing part of
`include/coring/async_logger.hpp` as a machine of three kinds of parties: threads that call
`append`, the logging thread that runs `logging_loop` and `poll`, and the caller of `stop`.  Every
critical section, every access to a ring and every access to one of the flags `signal_`,
`force_flush_` and the stop request is a step of its own; what only the logging thread touches
is done along with the step before.

Two things are taken at face value here that the code builds from smaller parts.  A ring is a
bounded queue, named by its thread, which has it to itself; `batch_out` is one step, and takes out
what is published when it loads the write index.  And `log_rings_` is a list, to which a thread adds
its ring in one step, whatever the logging thread is doing.  `Coring.Logging.RingLogger` replaces
the queues by the rings of the code, and `Coring.Logging.LogRings` the list by the vector and its
mutex; there it is also said when the logging thread can rely on the vector.

Condition variables appear only through what happens after a wait: `wait_for` returns after the
flush interval at the latest, and may return at any time before.

How the time stamp of an entry is turned into text is left open (`Datetime`): the logger updates
its time buffer for each entry and copies the text from there.
-/

namespace Coring.Logging

/-! ## Entries and their text -/

/-- `log_level`. -/
inductive LogLevel
  | trace
  | debug
  | info
  | warn
  | error
  | fatal
  deriving Repr, DecidableEq

/-- `log_level_map_`. -/
def LogLevel.name : LogLevel → List Char
  | .trace => ['T', 'R', 'A', 'C', 'E']
  | .debug => ['D', 'E', 'B', 'U', 'G']
  | .info => ['I', 'N', 'F', 'O', ' ']
  | .warn => ['W', 'A', 'R', 'N', ' ']
  | .error => ['E', 'R', 'R', 'O', 'R']
  | .fatal => ['F', 'A', 'T', 'A', 'L']

/-- `log_ring_entry_t`: a `log_entry` and what its function writes. -/
structure LogRingEntry (τ : Type) where
  file : List Char
  line : ℤ
  lv : LogLevel
  ts : τ
  pidString : List Char
  text : List Char
  deriving DecidableEq

/-- The state of `last_time_` and `time_buffer_`, `update_datetime`, and the text in the buffer. -/
structure Datetime (τ : Type) where
  State : Type
  updateDatetime : State → τ → State
  timeBuffer : State → List Char

namespace Datetime

variable {τ : Type} (D : Datetime τ)

/-- `pid_string_len`. -/
def pidStringLen : ℕ := 6

/-- The body of the loop over the backlogs: what it adds to the writing buffer. -/
def write (d : D.State) (h : LogRingEntry τ) : D.State × List Char :=
  let d := D.updateDatetime d h.ts
  (d, D.timeBuffer d ++ h.pidString.take pidStringLen ++ h.lv.name ++ [' '] ++ h.file ++
    ':' :: (toString h.line).toList ++ [' '] ++ h.text)

/-- The loop. -/
def writeAll (d : D.State) : List (LogRingEntry τ) → D.State × List Char
  | [] => (d, [])
  | h :: hs =>
      let (d, text) := D.write d h
      let (d, texts) := writeAll d hs
      (d, text ++ texts)

end Datetime

/-! ## The parties -/

/-- Where a thread is in `append`. -/
inductive AppendPc (τ : Type)
  | idle
  /-- The thread has no ring yet. -/
  | register (h : LogRingEntry τ)
  | signal (h : LogRingEntry τ)
  | emplaceBack (h : LogRingEntry τ)
  /-- The entry is in the ring. -/
  | notifyOne (h : LogRingEntry τ)

/-- Where the logging thread is; `last` tells the `poll` behind the loop from those in it. -/
inductive LoggerPc
  /-- `run` has not been called. -/
  | notStarted
  /-- The test of the loop. -/
  | test
  | poll (last : Bool)
  /-- Before ring `i` of those that were there when `poll` began. -/
  | pass (last : Bool) (ringsSize i : ℕ) (empty : Bool)
  | testSignal (last : Bool) (ringsSize : ℕ) (empty : Bool)
  | testForce (last : Bool) (ringsSize : ℕ)
  | clearSignal (last : Bool)
  | testStop (last : Bool) (ringsSize : ℕ)
  | format (last : Bool)
  | flush (last : Bool)
  /-- The buffer has been handed to the file. -/
  | testFlushed (last : Bool)
  | clearForce (last : Bool)
  | wait
  /-- The loop has ended. -/
  | setForce
  | done
  deriving DecidableEq

/-- Where the caller of `stop` is. -/
inductive StopPc
  | notCalled
  | called
  | requested
  | forced
  | returned
  deriving DecidableEq

/-- `stop_requested()`. -/
def StopPc.stopRequested : StopPc → Bool
  | .notCalled | .called => false
  | .requested | .forced | .returned => true

structure LoggerState {τ : Type} (D : Datetime τ) where
  threads : ℕ → AppendPc τ
  /-- `log_rings_`: the threads whose rings are registered. -/
  logRings : List ℕ
  ring : ℕ → List (LogRingEntry τ)
  signal : Bool
  forceFlush : Bool
  logger : LoggerPc
  /-- The entries `poll` has taken out, with their threads. -/
  backlogs : List (ℕ × LogRingEntry τ)
  datetime : D.State
  writingBuffer : List Char
  /-- The data handed to `log_file::append`. -/
  output : List Char
  stop : StopPc
  /-- What each thread has put into its ring. -/
  enqueued : ℕ → List (LogRingEntry τ)
  /-- The entries for which `append` has returned, -/
  returned : ℕ → List (LogRingEntry τ)
  /-- and for which it had when `stop` was called. -/
  before : ℕ → List (LogRingEntry τ)
  /-- The entries in the writing buffer, -/
  buffered : List (ℕ × LogRingEntry τ)
  /-- and those handed to the file. -/
  flushed : List (ℕ × LogRingEntry τ)

/-- `capacity()` of a ring. -/
def ringCapacity : ℕ := 8192 - 1

/-- From this size on the writing buffer is handed to the file. -/
def flushSize : ℕ := 1000 * 4000 - 500

namespace LoggerState

variable {τ : Type} {D : Datetime τ}

/-- A new logger. -/
def start (D : Datetime τ) (d : D.State) : LoggerState D where
  threads := fun _ => .idle
  logRings := []
  ring := fun _ => []
  signal := false
  forceFlush := false
  logger := .notStarted
  backlogs := []
  datetime := d
  writingBuffer := []
  output := []
  stop := .notCalled
  enqueued := fun _ => []
  returned := fun _ => []
  before := fun _ => []
  buffered := []
  flushed := []

/-! ## Steps -/

inductive ThreadAct (τ : Type)
  | append (h : LogRingEntry τ)
  | register
  | signal
  | emplaceBack
  | notifyOne

def setThread (s : LoggerState D) (t : ℕ) (pc : AppendPc τ) : LoggerState D :=
  { s with threads := Function.update s.threads t pc }

/-- The steps of `append` on a thread; `register` is all that happens to `log_rings_`. -/
def threadStep (s : LoggerState D) (t : ℕ) : ThreadAct τ → Option (LoggerState D)
  | .append h => match s.threads t with
      | .idle => some (s.setThread t (if t ∈ s.logRings then .emplaceBack h else .register h))
      | _ => none
  | .register => match s.threads t with
      | .register h => some { s.setThread t (.signal h) with logRings := s.logRings ++ [t] }
      | _ => none
  | .signal => match s.threads t with
      | .signal h => some { s.setThread t (.emplaceBack h) with signal := true }
      | _ => none
  | .emplaceBack => match s.threads t with
      | .emplaceBack h =>
          -- A full ring keeps the thread in the loop of `emplace`.
          if (s.ring t).length < ringCapacity then
            some { s.setThread t (.notifyOne h) with
              ring := Function.update s.ring t (s.ring t ++ [h])
              enqueued := Function.update s.enqueued t (s.enqueued t ++ [h]) }
          else none
      | _ => none
  | .notifyOne => match s.threads t with
      | .notifyOne h =>
          some { s.setThread t .idle with
            returned := Function.update s.returned t (s.returned t ++ [h]) }
      | _ => none

/-- `poll` returns. -/
def pollReturn (s : LoggerState D) (last : Bool) : LoggerState D :=
  { s with logger := if last then .done else .wait }

/-- The next step of the logging thread. -/
def loggerStep (s : LoggerState D) : Option (LoggerState D) :=
  match s.logger with
  | .notStarted => none
  | .test =>
      if s.stop.stopRequested then some { s with logger := .setForce }
      else some { s with logger := .poll false }
  | .poll last => some { s with logger := .pass last s.logRings.length 0 true }
  | .pass last ringsSize i empty =>
      if i < ringsSize then
        match s.logRings[i]? with
        | some t =>
            some { s with
              ring := Function.update s.ring t []
              backlogs := s.backlogs ++ (s.ring t).map fun h => (t, h)
              logger := .pass last ringsSize (i + 1) (empty && (s.ring t).isEmpty) }
        | none => none
      else some { s with logger := .testSignal last ringsSize empty }
  | .testSignal last ringsSize empty =>
      if empty || s.signal then some { s with logger := .clearSignal last }
      else some { s with logger := .testForce last ringsSize }
  | .testForce last ringsSize =>
      if s.forceFlush then some { s with logger := .clearSignal last }
      else some { s with logger := .testStop last ringsSize }
  | .clearSignal last => some { s with signal := false, logger := .format last }
  | .testStop last ringsSize =>
      if s.stop.stopRequested then some { s with logger := .format last }
      else some { s with logger := .pass last ringsSize 0 true }
  | .format last =>
      if s.backlogs.isEmpty && s.writingBuffer.isEmpty then some (s.pollReturn last)
      else
        let (d, text) := D.writeAll s.datetime (s.backlogs.map Prod.snd)
        some { s with
          datetime := d
          writingBuffer := s.writingBuffer ++ text
          buffered := s.buffered ++ s.backlogs
          backlogs := []
          logger := .flush last }
  | .flush last =>
      if s.forceFlush || s.writingBuffer.length ≥ flushSize then
        some { s with
          output := s.output ++ s.writingBuffer
          flushed := s.flushed ++ s.buffered
          logger := .testFlushed last }
      else some (s.pollReturn last)
  | .testFlushed last =>
      if s.forceFlush then some { s with logger := .clearForce last }
      else some ({ s with writingBuffer := [], buffered := [] }.pollReturn last)
  | .clearForce last =>
      some ({ s with forceFlush := false, writingBuffer := [], buffered := [] }.pollReturn last)
  | .wait => some { s with forceFlush := true, logger := .test }
  | .setForce => some { s with forceFlush := true, logger := .poll true }
  | .done => none

inductive Act (τ : Type)
  | thread (t : ℕ) (a : ThreadAct τ)
  /-- `run()`, up to the first step of the loop. -/
  | run
  | logger
  | callStop
  | requestStop
  | forceFlush
  | join

def step (s : LoggerState D) : Act τ → Option (LoggerState D)
  | .thread t a => s.threadStep t a
  | .run => if s.logger = .notStarted then some { s with logger := .test } else none
  | .logger => s.loggerStep
  | .callStop =>
      if s.logger ≠ .notStarted ∧ s.stop = .notCalled then
        some { s with stop := .called, before := s.returned }
      else none
  | .requestStop => if s.stop = .called then some { s with stop := .requested } else none
  | .forceFlush =>
      if s.stop = .requested then some { s with stop := .forced, forceFlush := true } else none
  | .join =>
      if s.stop = .forced ∧ s.logger = .done then some { s with stop := .returned } else none

def machine : Machine (LoggerState D) (Act τ) := ⟨step⟩

end LoggerState

end Coring.Logging
