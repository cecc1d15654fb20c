import Coring.AsyncTask.Basic

/-!
# Lazy tasks

Calling a coroutine that returns a `task` runs nothing: it stops at its initial suspend point and
the caller gets the task.  Its body runs when the task is first awaited, by a transfer from the
awaiting coroutine to it, and at its end it transfers back.  This file embeds the promise, the
awaitable and the task object of `include/coring/task.hpp` over programs of such coroutines.

A body is a finite tree, as for `AsyncTask`: what it does after an await depends on what the await
has given it.  Beside calling and awaiting it may ask whether a task is ready, make an empty one,
and assign one of its tasks to another.  `when_ready()` is an await whose continuation does not
look at what it gets.  I/O operations have a name, so that one can speak of their order.

The coroutine with the number zero is the root, an `async_run`: it starts at once, nobody awaits
it, and its frame goes with its body.  A task object is a local of the coroutine that has made it,
and it destroys the frame it names.  A frame that is destroyed stays in the table as such, and any
use of it is a step that does not exist.
-/

namespace Coring.LazyTask

open AsyncTask (Result)

/-- What a coroutine does from here on. -/
inductive Body (α ε ω : Type)
  /-- `co_return`. -/
  | coReturn (v : α)
  | throw (e : AsyncTask.Exception ε)
  /-- Call a coroutine and keep the task. -/
  | create (child : Body α ε ω) (k : Body α ε ω)
  /-- A task that names no coroutine. -/
  | createEmpty (k : Body α ε ω)
  /-- Move the `i`-th of its tasks into the `j`-th. -/
  | assign (i j : ℕ) (k : Body α ε ω)
  /-- `is_ready()` of the `i`-th task. -/
  | isReady (i : ℕ) (k : Bool → Body α ε ω)
  /-- Await an I/O operation. -/
  | awaitIo (op : ω) (k : ℤ → Body α ε ω)
  /-- Await the `i`-th task; with fewer of them it is an empty task. -/
  | awaitTask (i : ℕ) (k : Result α ε → Body α ε ω)

variable {α ε ω : Type}

/-- Where a coroutine is. -/
inductive Pc (α ε ω : Type)
  /-- At its initial suspend point. -/
  | created (body : Body α ε ω)
  | running (body : Body α ε ω)
  | awaitingIo (op : ω) (k : ℤ → Body α ε ω)
  | awaitingTask (child : ℕ) (k : Result α ε → Body α ε ω)
  /-- At its final suspend point. -/
  | done
  /-- Its frame has been destroyed. -/
  | destroyed

/-- A coroutine frame with its promise. -/
structure Frame (α ε ω : Type) where
  pc : Pc α ε ω
  /-- The task objects among its locals, by the coroutines they name. -/
  tasks : List (Option ℕ)
  /-- `who_await_me_`. -/
  whoAwaitMe : Option ℕ
  /-- The result, by `m_resultType`; `none` if that is `empty`. -/
  result : Option (Result α ε)

/-- A coroutine that has just been called. -/
def Frame.called (body : Body α ε ω) : Frame α ε ω := ⟨.created body, [], none, none⟩

/-- In place of a frame that does not exist. -/
def Frame.absent : Frame α ε ω := ⟨.destroyed, [], none, none⟩

structure State (α ε ω : Type) where
  frame : ℕ → Frame α ε ω
  /-- The number of coroutines called so far. -/
  called : ℕ
  /-- The coroutine that is running. -/
  current : Option ℕ
  /-- The frames that have been destroyed, in order. -/
  destroyed : List ℕ
  /-- The I/O operations that have been completed, with their results. -/
  trace : List (ω × ℤ)
  /-- What the root has ended with. -/
  outcome : Option (Result α ε)

/-- The root with its body. -/
def start (body : Body α ε ω) : State α ε ω where
  frame := Function.update (fun _ => .absent) 0 ⟨.running body, [], none, none⟩
  called := 1
  current := some 0
  destroyed := []
  trace := []
  outcome := none

namespace State

def setFrame (s : State α ε ω) (t : ℕ) (f : Frame α ε ω) : State α ε ω :=
  { s with frame := Function.update s.frame t f }

def setPc (s : State α ε ω) (t : ℕ) (pc : Pc α ε ω) : State α ε ω :=
  s.setFrame t { s.frame t with pc := pc }

/-- `destroy()` of a frame. -/
def destroyFrame (s : State α ε ω) (t : ℕ) : State α ε ω :=
  { s.setPc t .destroyed with destroyed := s.destroyed ++ [t] }

/-- `~task()`. -/
def destroyTask (s : State α ε ω) : Option ℕ → Option (State α ε ω)
  | none => some s
  | some c =>
      match (s.frame c).pc with
      | .created _ | .done => some (s.destroyFrame c)
      -- Its frame is gone, or it would be resumed later on.
      | _ => none

/-- The task objects of a scope are destroyed. -/
def destroyTasks : List (Option ℕ) → State α ε ω → Option (State α ε ω)
  | [], s => some s
  | h :: hs, s => (s.destroyTask h).bind (destroyTasks hs)

/-- `done()` of a handle that is not null. -/
def isDone (s : State α ε ω) (c : ℕ) : Option Bool :=
  match (s.frame c).pc with
  | .done => some true
  | .destroyed => none
  | .created _ | .running _ | .awaitingIo .. | .awaitingTask .. => some false

/-- `await_resume` of a coroutine that awaits a task, and the code behind it. -/
def awaitResume (s : State α ε ω) (t child : ℕ) (k : Result α ε → Body α ε ω) :
    Option (State α ε ω) := do
  -- `result()` asserts that there is one.
  let r ← (s.frame child).result
  return { s.setPc t (.running (k r)) with current := some t }

/-- A transfer to a coroutine that has not run yet. -/
def transferTo (s : State α ε ω) (c : ℕ) : Option (State α ε ω) :=
  match (s.frame c).pc with
  | .created body => some { s.setPc c (.running body) with current := some c }
  | _ => none

/-- `co_await` of a task. -/
def awaitTask (s : State α ε ω) (t : ℕ) (i : ℕ) (k : Result α ε → Body α ε ω) :
    Option (State α ε ω) :=
  match (s.frame t).tasks[i]?.getD none with
  | none => some (s.setPc t (.running (k (.error .brokenPromise))))
  | some child => do
      if ← s.isDone child then s.awaitResume t child k
      else
        let s := s.setPc t (.awaitingTask child k)
        -- The child runs in the place of the awaiting coroutine.
        (s.setFrame child { s.frame child with whoAwaitMe := some t }).transferTo child

/-- The final suspend point of a task. -/
def finalSuspend (s : State α ε ω) (t : ℕ) : Option (State α ε ω) := do
  let w ← (s.frame t).whoAwaitMe
  match (s.frame w).pc with
  | .awaitingTask child k => s.awaitResume w child k
  | _ => none

/-- The end of a body: its locals go, and what it has produced is stored. -/
def finish (s : State α ε ω) (t : ℕ) (r : Result α ε) : Option (State α ε ω) := do
  let s ← destroyTasks (s.frame t).tasks.reverse s
  let s := s.setFrame t { s.frame t with pc := .done, tasks := [], result := some r }
  if t = 0 then return { s.destroyFrame 0 with current := none, outcome := some r }
  else s.finalSuspend t

/-- `operator=`; assigning a task to itself does nothing. -/
def assign (s : State α ε ω) (t i j : ℕ) : Option (State α ε ω) :=
  let tasks := (s.frame t).tasks
  if i = j ∨ tasks.length ≤ i ∨ tasks.length ≤ j then some s
  else do
    let s ← s.destroyTask (tasks[j]?.getD none)
    return s.setFrame t { s.frame t with
      tasks := (tasks.set j (tasks[i]?.getD none)).set i none }

/-- A call of a coroutine: its frame, and a task that names it. -/
def create (s : State α ε ω) (t : ℕ) (child k : Body α ε ω) : State α ε ω :=
  let s' := s.setFrame t { s.frame t with
    pc := .running k, tasks := (s.frame t).tasks ++ [some s.called] }
  { s'.setFrame s.called (.called child) with called := s.called + 1 }

/-- A task made by the default constructor. -/
def createEmpty (s : State α ε ω) (t : ℕ) (k : Body α ε ω) : State α ε ω :=
  s.setFrame t { s.frame t with pc := .running k, tasks := (s.frame t).tasks ++ [none] }

/-- `is_ready()`. -/
def isReady (s : State α ε ω) (t i : ℕ) : Option Bool :=
  match (s.frame t).tasks[i]?.getD none with
  | none => some true
  | some c => s.isDone c

/-- The next step of a body that is running. -/
def execBody (s : State α ε ω) (t : ℕ) : Body α ε ω → Option (State α ε ω)
  | .coReturn v => s.finish t (.ok v)
  | .throw e => s.finish t (.error e)
  | .create child k => some (s.create t child k)
  | .createEmpty k => some (s.createEmpty t k)
  | .assign i j k => (s.assign t i j).map fun s => s.setPc t (.running k)
  | .isReady i k => (s.isReady t i).map fun ready => s.setPc t (.running (k ready))
  | .awaitIo op k => some { s.setPc t (.awaitingIo op k) with current := none }
  | .awaitTask i k => s.awaitTask t i k

/-- The running coroutine goes on. -/
def exec (s : State α ε ω) : Option (State α ε ω) := do
  let t ← s.current
  match (s.frame t).pc with
  | .running body => s.execBody t body
  | _ => none

end State

inductive Action
  /-- The running coroutine goes on. -/
  | exec
  /-- An I/O operation has completed, and the coroutine that awaits it is resumed. -/
  | complete (t : ℕ) (res : ℤ)
  deriving Repr, DecidableEq

def step (s : State α ε ω) : Action → Option (State α ε ω)
  | .exec => s.exec
  | .complete t res =>
      match s.current, (s.frame t).pc with
      | none, .awaitingIo op k =>
          some { s.setPc t (.running (k res)) with
            current := some t, trace := s.trace ++ [(op, res)] }
      | _, _ => none

def machine : Machine (State α ε ω) Action := ⟨step⟩

end Coring.LazyTask
