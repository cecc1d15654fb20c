import Coring.LazyTask.Basic

/-!
# What a program of lazy tasks means

Read as a program without coroutines, a lazy task is a call that has not been made yet.  Awaiting
it makes the call and keeps what comes back; awaiting it again gives the same.  Nothing is
suspended: an I/O operation is a call too, and a body runs from its beginning to its end.

`Evals` says this for a body with the tasks it has in its hands: which I/O operations it makes, in
which order and with which results, and what it ends with.  There is no frame in it, no handle and
no transfer; that the coroutines behave like this is shown in `Adequacy`.
-/

namespace Coring.LazyTask

open AsyncTask (Result)

variable {α ε ω : Type}

/-- A task in the hands of a body. -/
inductive Slot (α ε ω : Type)
  | empty
  /-- Not called yet. -/
  | lazy (body : Body α ε ω)
  | done (r : Result α ε)

/-- `is_ready()`. -/
def Slot.isReady : Slot α ε ω → Bool
  | .empty | .done _ => true
  | .lazy _ => false

/-- The `i`-th task. -/
def slotAt (slots : List (Slot α ε ω)) (i : ℕ) : Slot α ε ω := slots[i]?.getD .empty

/-- One task is moved into another. -/
def assignSlot (slots : List (Slot α ε ω)) (i j : ℕ) : List (Slot α ε ω) :=
  if i = j ∨ slots.length ≤ i ∨ slots.length ≤ j then slots
  else (slots.set j (slotAt slots i)).set i .empty

/-- With the given tasks the body makes these I/O operations and ends with this result. -/
inductive Evals : Body α ε ω → List (Slot α ε ω) → List (ω × ℤ) → Result α ε → Prop
  | coReturn (v : α) (slots : List (Slot α ε ω)) : Evals (.coReturn v) slots [] (.ok v)
  | throw (e : AsyncTask.Exception ε) (slots : List (Slot α ε ω)) :
      Evals (.throw e) slots [] (.error e)
  | create {child k : Body α ε ω} {slots : List (Slot α ε ω)} {io : List (ω × ℤ)} {r : Result α ε}
      (h : Evals k (slots ++ [.lazy child]) io r) : Evals (.create child k) slots io r
  | createEmpty {k : Body α ε ω} {slots : List (Slot α ε ω)} {io : List (ω × ℤ)} {r : Result α ε}
      (h : Evals k (slots ++ [.empty]) io r) : Evals (.createEmpty k) slots io r
  | assign {i j : ℕ} {k : Body α ε ω} {slots : List (Slot α ε ω)} {io : List (ω × ℤ)}
      {r : Result α ε} (h : Evals k (assignSlot slots i j) io r) : Evals (.assign i j k) slots io r
  | isReady {i : ℕ} {k : Bool → Body α ε ω} {slots : List (Slot α ε ω)} {io : List (ω × ℤ)}
      {r : Result α ε} (h : Evals (k (slotAt slots i).isReady) slots io r) :
      Evals (.isReady i k) slots io r
  | awaitIo {op : ω} {res : ℤ} {k : ℤ → Body α ε ω} {slots : List (Slot α ε ω)}
      {io : List (ω × ℤ)} {r : Result α ε} (h : Evals (k res) slots io r) :
      Evals (.awaitIo op k) slots ((op, res) :: io) r
  | awaitEmpty {i : ℕ} {k : Result α ε → Body α ε ω} {slots : List (Slot α ε ω)}
      {io : List (ω × ℤ)} {r : Result α ε} (hi : slotAt slots i = .empty)
      (h : Evals (k (.error .brokenPromise)) slots io r) : Evals (.awaitTask i k) slots io r
  | awaitDone {i : ℕ} {k : Result α ε → Body α ε ω} {slots : List (Slot α ε ω)}
      {io : List (ω × ℤ)} {r r' : Result α ε} (hi : slotAt slots i = .done r')
      (h : Evals (k r') slots io r) : Evals (.awaitTask i k) slots io r
  | awaitLazy {i : ℕ} {child : Body α ε ω} {k : Result α ε → Body α ε ω}
      {slots : List (Slot α ε ω)} {io io' : List (ω × ℤ)} {r r' : Result α ε}
      (hi : slotAt slots i = .lazy child) (hchild : Evals child [] io r')
      (h : Evals (k r') (slots.set i (.done r')) io' r) : Evals (.awaitTask i k) slots (io ++ io') r

end Coring.LazyTask
