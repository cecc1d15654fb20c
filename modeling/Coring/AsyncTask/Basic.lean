import Coring.Framework.Machine
import Mathlib.Data.Int.Notation
import Mathlib.Data.Nat.Notation
import Mathlib.Logic.Function.Basic

/-!
# Eager tasks

An `async_task` runs from the moment its coroutine is called: `initial_suspend` never suspends.
The caller gets the task object when the coroutine is suspended for the first time or has ended,
and may await it later, at most one awaiter for a task.  This file embeds the promise, the
awaitable and the final suspend point of `include/coring/async_task.hpp` over programs of such
coroutines.

A coroutine body is what it does from here on: call another coroutine, await an I/O operation,
await a task it has started before, or end with a value or an exception.  What it does after an
await may depend on what the await has given it, also on an exception, which it may catch or let
pass.  A body is a finite tree: whatever its awaits give, it comes to an end.

There is one thread.  The coroutines that are on it stand on a stack: a coroutine that is called
runs on top of its caller, and one that is suspended leaves the stack and gives control to the one
below.  At its final suspend point a coroutine hands control to the one that awaits it, which takes
its place on the stack.  On an empty stack the event loop is running; there new coroutines are
called and completed I/O operations resume the coroutine that awaits them.

A coroutine handle is the number of its call.  A body holds the tasks it has started until it ends.
Then they are destroyed, each with the frame of its coroutine, whether that has ended or not, and
with a coroutine that has not ended the tasks that it holds in turn.  The task of a coroutine called
from the event loop is kept.  A destroyed frame is only marked, with its last contents left in the
table; to go on with it, or to look into it, has no defined effect, and is no step.
-/

namespace Coring.AsyncTask

/-- What a body can throw. -/
inductive Exception (ε : Type)
  | thrown (e : ε)
  /-- `broken_promise`. -/
  | brokenPromise
  deriving Repr, DecidableEq

/-- What a task produces: a value or an exception. -/
abbrev Result (α ε : Type) := Except (Exception ε) α

/-- What a coroutine does from here on. -/
inductive Body (α ε : Type)
  /-- `co_return`. -/
  | coReturn (v : α)
  | throw (e : Exception ε)
  /-- Call a coroutine and keep the task. -/
  | start (child : Body α ε) (k : Body α ε)
  /-- Await an I/O operation. -/
  | awaitIo (k : ℤ → Body α ε)
  /-- Await the `i`-th of the tasks started so far; with fewer of them it is an empty task. -/
  | awaitTask (i : ℕ) (k : Result α ε → Body α ε)

variable {α ε : Type}

/-- What the end of a body produces. -/
def Body.ends : Body α ε → Option (Result α ε)
  | .coReturn v => some (.ok v)
  | .throw e => some (.error e)
  | .start .. | .awaitIo _ | .awaitTask .. => none

/-- Where a coroutine is. -/
inductive Pc (α ε : Type)
  | running (body : Body α ε)
  | awaitingIo (k : ℤ → Body α ε)
  | awaitingTask (child : ℕ) (k : Result α ε → Body α ε)
  /-- At its final suspend point. -/
  | done

/-- A coroutine frame with its promise. -/
structure Frame (α ε : Type) where
  pc : Pc α ε
  /-- The task objects it holds, up to the end of its body. -/
  tasks : List ℕ
  /-- `who_await_me_`. -/
  whoAwaitMe : Option ℕ
  /-- The result, by `m_resultType`; `none` if that is `empty`. -/
  result : Option (Result α ε)

/-- A coroutine that has just been called. -/
def Frame.called (body : Body α ε) : Frame α ε := ⟨.running body, [], none, none⟩

/-- In place of a frame that does not exist. -/
def Frame.absent : Frame α ε := ⟨.done, [], none, none⟩

/-- `done()` of a handle. -/
def Frame.isDone (f : Frame α ε) : Bool :=
  match f.pc with
  | .done => true
  | .running _ | .awaitingIo _ | .awaitingTask .. => false

structure State (α ε : Type) where
  frame : ℕ → Frame α ε
  /-- The number of coroutines called so far. -/
  called : ℕ
  stack : List ℕ
  /-- Whose frames have been destroyed. -/
  destroyed : ℕ → Bool
  /-- Which coroutine has been suspended on which task, -/
  suspensions : List (ℕ × ℕ)
  /-- has been resumed by it, -/
  resumptions : List (ℕ × ℕ)
  /-- and what it has obtained from it. -/
  obtained : List (ℕ × ℕ × Result α ε)

def start : State α ε := ⟨fun _ => .absent, 0, [], fun _ => false, [], [], []⟩

namespace State

def setPc (s : State α ε) (t : ℕ) (pc : Pc α ε) : State α ε :=
  { s with frame := Function.update s.frame t { s.frame t with pc := pc } }

/-- A call of a coroutine: its frame, and its body on top of the stack. -/
def call (s : State α ε) (body : Body α ε) : State α ε :=
  { s with
    frame := Function.update s.frame s.called (Frame.called body)
    called := s.called + 1
    stack := s.called :: s.stack }

/-- `await_resume` of a coroutine that awaits a task, and the code behind it. -/
def awaitResume (s : State α ε) (t child : ℕ) (k : Result α ε → Body α ε) :
    Option (State α ε) := do
  -- `result()` asserts that there is one.
  let r ← (s.frame child).result
  return { s.setPc t (.running (k r)) with obtained := s.obtained ++ [(t, child, r)] }

/-- `co_await` of a task. -/
def awaitTask (s : State α ε) (t child : ℕ) (k : Result α ε → Body α ε) (rest : List ℕ) :
    Option (State α ε) :=
  if (s.frame child).isDone then s.awaitResume t child k
  else
    let s := s.setPc t (.awaitingTask child k)
    some { s with
      frame := Function.update s.frame child { s.frame child with whoAwaitMe := some t }
      stack := rest
      suspensions := s.suspensions ++ [(t, child)] }

/-- `~async_task` of some task objects.  With the frame of a coroutine that has not ended, the task
objects in it are destroyed; they are younger than it, so as many levels as there are coroutines are
enough. -/
def destroyTasks (frame : ℕ → Frame α ε) : ℕ → List ℕ → (ℕ → Bool) → ℕ → Bool
  | 0, _, destroyed => destroyed
  | depth + 1, tasks, destroyed =>
      tasks.foldl (fun destroyed c =>
        let destroyed := Function.update destroyed c true
        if (frame c).isDone then destroyed
        else destroyTasks frame depth (frame c).tasks destroyed) destroyed

/-- The final suspend point. -/
def finalSuspend (s : State α ε) (t : ℕ) (rest : List ℕ) : Option (State α ε) :=
  match (s.frame t).whoAwaitMe with
  | none => some { s with stack := rest }
  | some w =>
      if s.destroyed w then none
      else if (s.frame w).isDone then some { s with stack := rest }
      else
        match (s.frame w).pc with
        | .awaitingTask child k => do
            let s ← s.awaitResume w child k
            return { s with stack := w :: rest, resumptions := s.resumptions ++ [(w, t)] }
        | _ => none

/-- The end of a body: the result is in the promise when the tasks are destroyed. -/
def finish (s : State α ε) (t : ℕ) (r : Result α ε) (rest : List ℕ) :
    Option (State α ε) :=
  finalSuspend
    { s with
      frame := Function.update s.frame t { s.frame t with pc := .done, result := some r }
      destroyed := destroyTasks s.frame s.called (s.frame t).tasks s.destroyed }
    t rest

/-- The coroutine on top of the stack goes on. -/
def exec (s : State α ε) : Option (State α ε) :=
  match s.stack with
  | [] => none
  | t :: rest =>
      match (s.frame t).pc with
      | .running (.coReturn v) => s.finish t (.ok v) rest
      | .running (.throw e) => s.finish t (.error e) rest
      | .running (.start child k) =>
          some (call { s with frame := Function.update s.frame t { s.frame t with
            pc := .running k, tasks := (s.frame t).tasks ++ [s.called] } } child)
      | .running (.awaitIo k) => some { s.setPc t (.awaitingIo k) with stack := rest }
      | .running (.awaitTask i k) =>
          match (s.frame t).tasks[i]? with
          | none => some (s.setPc t (.running (k (.error .brokenPromise))))
          | some child => s.awaitTask t child k rest
      | _ => none

end State

inductive Action (α ε : Type)
  /-- A coroutine is called from the event loop. -/
  | call (body : Body α ε)
  /-- The running coroutine goes on. -/
  | exec
  /-- An I/O operation has completed, and the coroutine that awaits it is resumed. -/
  | complete (t : ℕ) (res : ℤ)

def step (s : State α ε) : Action α ε → Option (State α ε)
  | .call body => if s.stack = [] then some (s.call body) else none
  | .exec => s.exec
  | .complete t res =>
      if s.stack = [] ∧ s.destroyed t = false then
        match (s.frame t).pc with
        | .awaitingIo k => some { s.setPc t (.running (k res)) with stack := [t] }
        | _ => none
      else none

def machine : Machine (State α ε) (Action α ε) := ⟨step⟩

/-- A body that ends has seen the end of all tasks it has started. -/
def Tidy (s : State α ε) : Action α ε → Bool
  | .exec => match s.stack with
      | [] => true
      | t :: _ => match (s.frame t).pc with
          | .running body =>
              body.ends.isNone || (s.frame t).tasks.all fun c => (s.frame c).isDone
          | _ => true
  | _ => true

end Coring.AsyncTask
