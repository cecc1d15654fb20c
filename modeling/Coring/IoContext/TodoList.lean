import Coring.Framework.Machine

/-!
# Scheduled tasks

`schedule` puts a task, or a vector of them, at the end of `todo_list_`, and `do_run` calls
`do_todo_list` before its loop and once in every round of it.  That function swaps the list out
into `local_copy` and starts the tasks one after the other: `execute` hands a task to the scope,
which runs it up to its first suspension.  A task that is being started may schedule others, which
then find themselves on the list that was left empty.

The machine has one action for each start of a task, so that any calls of `schedule` may come
between two of them; that the tasks are started in the order in which they were scheduled is an
invariant about what has been started, what `local_copy` still holds and what the list holds.
-/

namespace Coring.TodoList

variable {τ : Type*}

structure State (τ : Type*) where
  /-- `todo_list_`. -/
  todoList : List τ
  /-- What `local_copy` still holds, if `do_todo_list` is running. -/
  localCopy : Option (List τ)
  /-- The tasks that have been started, in their order. -/
  started : List τ
  deriving Repr, DecidableEq

/-- A new context. -/
def start : State τ := ⟨[], none, []⟩

/-- `schedule(std::vector<my_todo_t> &)`: the list and the caller's vector as it leaves them. -/
def scheduleVector (todoList taskList : List τ) : List τ × List τ :=
  if todoList.isEmpty then (taskList, todoList)
  else
    -- The elements are moved over and the vector is cleared.
    (todoList ++ taskList, [])

inductive Action (τ : Type*)
  | schedule (t : τ)
  | scheduleVector (taskList : List τ)
  /-- `do_todo_list` swaps the list with its empty `local_copy`. -/
  | swapOut
  /-- It starts the next task. -/
  | execute
  /-- It has started them all and returns. -/
  | finish
  deriving Repr, DecidableEq

def step (s : State τ) : Action τ → Option (State τ)
  | .schedule t => some { s with todoList := s.todoList ++ [t] }
  | .scheduleVector taskList =>
      some { s with todoList := (TodoList.scheduleVector s.todoList taskList).1 }
  | .swapOut =>
      match s.localCopy with
      | none => some { s with todoList := [], localCopy := some s.todoList }
      | some _ => none
  | .execute =>
      match s.localCopy with
      | some (t :: rest) => some { s with localCopy := some rest, started := s.started ++ [t] }
      | _ => none
  | .finish =>
      match s.localCopy with
      | some [] => some { s with localCopy := none }
      | _ => none

def machine (τ : Type*) : Machine (State τ) (Action τ) := ⟨step⟩

namespace Action

/-- The tasks an action schedules. -/
def tasks : Action τ → List τ
  | .schedule t => [t]
  | .scheduleVector taskList => taskList
  | .swapOut | .execute | .finish => []

/-- The actions inside a round of `do_todo_list`. -/
def Within : Action τ → Prop
  | .schedule _ | .scheduleVector _ | .execute => True
  | .swapOut | .finish => False

end Action

/-- The tasks that `local_copy` holds. -/
def State.remaining (s : State τ) : List τ := s.localCopy.getD []

/-- Both branches of `schedule` append to the list and leave the caller's vector empty. -/
lemma scheduleVector_eq (todoList taskList : List τ) :
    scheduleVector todoList taskList = (todoList ++ taskList, []) := by
  unfold scheduleVector
  split
  · next hempty => rw [List.isEmpty_iff.mp hempty, List.nil_append]
  · rfl

/-- What a step inside a round does: it schedules tasks, or starts the first that remains. -/
lemma step_within {s s' : State τ} {a : Action τ} (ha : a.Within) (h : step s a = some s') :
    s'.todoList = s.todoList ++ a.tasks ∧
      s'.started ++ s'.remaining = s.started ++ s.remaining := by
  cases a with
  | schedule t =>
    cases h
    exact ⟨rfl, rfl⟩
  | scheduleVector taskList =>
    simp only [step, scheduleVector_eq, Option.some_inj] at h
    rw [← h]
    exact ⟨rfl, rfl⟩
  | swapOut => exact absurd ha id
  | execute =>
    simp only [step] at h
    split at h
    · next t rest hcopy =>
      cases h
      refine ⟨(List.append_nil _).symm, ?_⟩
      simp only [State.remaining, hcopy, Option.getD_some, List.append_assoc,
        List.singleton_append]
    · cases h
  | finish => exact absurd ha id

lemma step_swapOut {s s' : State τ} (h : step s .swapOut = some s') :
    s.localCopy = none ∧ s' = { s with todoList := [], localCopy := some s.todoList } := by
  simp only [step] at h
  split at h
  · next hcopy =>
    cases h
    exact ⟨hcopy, rfl⟩
  · cases h

lemma step_finish {s s' : State τ} (h : step s .finish = some s') :
    s.localCopy = some [] ∧ s' = { s with localCopy := none } := by
  simp only [step] at h
  split at h
  · next hcopy =>
    cases h
    exact ⟨hcopy, rfl⟩
  · cases h

/-- The tasks scheduled so far are those started, those that remain to be started in the round,
and those on the list, in this order. -/
def InOrder (as : List (Action τ)) (s : State τ) : Prop :=
  s.started ++ s.remaining ++ s.todoList = as.flatMap Action.tasks

lemma InOrder.step {as : List (Action τ)} {s s' : State τ} {a : Action τ} (hs : InOrder as s)
    (h : TodoList.step s a = some s') : InOrder (as ++ [a]) s' := by
  have hwithin : a.Within → InOrder (as ++ [a]) s' := by
    intro ha
    obtain ⟨hlist, hfront⟩ := step_within ha h
    rw [InOrder, hlist, hfront, ← List.append_assoc, hs, List.flatMap_append,
      List.flatMap_singleton]
  have hmoves : s'.started ++ s'.remaining ++ s'.todoList
      = s.started ++ s.remaining ++ s.todoList → a.tasks = [] → InOrder (as ++ [a]) s' := by
    intro hsame hnone
    rw [InOrder, hsame, hs, List.flatMap_append, List.flatMap_singleton, hnone, List.append_nil]
  cases a with
  | schedule t => exact hwithin trivial
  | scheduleVector taskList => exact hwithin trivial
  | swapOut =>
    obtain ⟨hcopy, rfl⟩ := step_swapOut h
    refine hmoves ?_ rfl
    simp only [State.remaining, hcopy, Option.getD_some, Option.getD_none, List.append_nil]
  | execute => exact hwithin trivial
  | finish =>
    obtain ⟨hcopy, rfl⟩ := step_finish h
    refine hmoves ?_ rfl
    simp only [State.remaining, hcopy, Option.getD_some, Option.getD_none]

/-- A run inside a round only starts tasks that were there when it began. -/
lemma run_within {s s' : State τ} {mid : List (Action τ)} (hmid : ∀ a ∈ mid, a.Within)
    (h : (machine τ).run s mid = some s') :
    s'.todoList = s.todoList ++ mid.flatMap Action.tasks ∧
      s'.started ++ s'.remaining = s.started ++ s.remaining := by
  induction mid generalizing s with
  | nil =>
    cases h
    exact ⟨(List.append_nil _).symm, rfl⟩
  | cons a mid ih =>
    obtain ⟨t, ht, hrun⟩ := (machine τ).run_cons_eq_some.mp h
    obtain ⟨hlist, hfront⟩ := step_within (hmid a (List.mem_cons_self ..)) ht
    obtain ⟨hlist', hfront'⟩ := ih (fun b hb => hmid b (List.mem_cons_of_mem _ hb)) hrun
    refine ⟨?_, hfront'.trans hfront⟩
    rw [hlist', hlist, List.flatMap_cons, List.append_assoc]

/-- A round from its swap on. -/
lemma run_round {s s' : State τ} {mid : List (Action τ)} (hmid : ∀ a ∈ mid, a.Within)
    (h : (machine τ).run s (.swapOut :: mid) = some s') :
    s'.todoList = mid.flatMap Action.tasks ∧
      s'.started ++ s'.remaining = s.started ++ s.remaining ++ s.todoList := by
  obtain ⟨t, ht, hrun⟩ := (machine τ).run_cons_eq_some.mp h
  obtain ⟨hcopy, rfl⟩ := step_swapOut ht
  obtain ⟨hlist, hfront⟩ := run_within hmid hrun
  refine ⟨hlist, hfront.trans ?_⟩
  simp only [State.remaining, hcopy, Option.getD_some, Option.getD_none, List.append_nil]

/-- A round that is left to itself comes to its end. -/
lemma run_remaining (l : List τ) {s : State τ} (hcopy : s.localCopy = some l) :
    ∃ s', (machine τ).run s (List.replicate l.length .execute ++ [.finish]) = some s' := by
  induction l generalizing s with
  | nil =>
    refine ⟨{ s with localCopy := none }, ?_⟩
    rw [List.length_nil, List.replicate_zero, List.nil_append, Machine.run_cons_eq_some]
    exact ⟨_, by simp only [machine, step, hcopy], rfl⟩
  | cons t rest ih =>
    have hstep : (machine τ).step s .execute
        = some { s with localCopy := some rest, started := s.started ++ [t] } := by
      simp only [machine, step, hcopy]
    obtain ⟨s', hs'⟩ := @ih { s with localCopy := some rest, started := s.started ++ [t] } rfl
    refine ⟨s', ?_⟩
    rw [List.length_cons, List.replicate_succ, List.cons_append, Machine.run_cons_eq_some]
    exact ⟨_, hstep, hs'⟩

/-- **Scheduled tasks start once, in order.**  After any actions of a new context the tasks started
are the first of those scheduled, in their order; in a round only tasks are started that were
scheduled before it began, and when it ends all of these are, while what was scheduled in the
meantime is the list of the next round; a round can be brought to its end; and the vector handed
to `schedule` is left empty. -/
theorem started_in_order {as : List (Action τ)} {s : State τ}
    (hs : (machine τ).run start as = some s) :
    s.started ++ s.remaining ++ s.todoList = as.flatMap Action.tasks ∧
    (∀ mid s', (∀ a ∈ mid, a.Within) → (machine τ).run s (.swapOut :: mid) = some s' →
      s'.started <+: as.flatMap Action.tasks) ∧
    (∀ mid s', (∀ a ∈ mid, a.Within) →
      (machine τ).run s (.swapOut :: mid ++ [.finish]) = some s' →
      s'.started = as.flatMap Action.tasks ∧ s'.todoList = mid.flatMap Action.tasks) ∧
    (∀ l, s.localCopy = some l →
      ∃ s', (machine τ).run s (List.replicate l.length .execute ++ [.finish]) = some s') ∧
    ∀ todoList taskList : List τ, (scheduleVector todoList taskList).2 = [] := by
  have hfirst : InOrder [] (start : State τ) := rfl
  have hall : InOrder as s := (machine τ).run_history (fun as s a s' hs _ hstep => hs.step hstep)
    hfirst ((machine τ).each_of_forall (fun _ _ => trivial) _ _) hs
  refine ⟨hall, ?_, ?_, fun l => run_remaining l, ?_⟩
  · intro mid s' hmid hrun
    obtain ⟨-, hfront⟩ := run_round hmid hrun
    rw [hall] at hfront
    exact ⟨s'.remaining, hfront⟩
  · intro mid s' hmid hrun
    rw [Machine.run_append] at hrun
    obtain ⟨t, ht, hfin⟩ := Option.bind_eq_some_iff.mp hrun
    obtain ⟨u, hu, hend⟩ := (machine τ).run_cons_eq_some.mp hfin
    cases hend
    obtain ⟨hcopy, rfl⟩ := step_finish hu
    obtain ⟨hlist, hfront⟩ := run_round hmid ht
    refine ⟨?_, hlist⟩
    simp only [State.remaining, hcopy, Option.getD_some, List.append_nil] at hfront
    rw [hfront]
    exact hall
  · intro todoList taskList
    rw [scheduleVector_eq]

/-- The first of three tasks schedules a fourth, which the round does not start. -/
theorem started_in_order_nested :
    ∃ s, (machine ℕ).run start [.schedule 1, .scheduleVector [2, 3], .swapOut, .execute,
        .schedule 4, .execute, .execute, .finish] = some s ∧
      s.started = [1, 2, 3] ∧ s.todoList = [4] := by
  have h := (@started_in_order ℕ [.schedule 1, .scheduleVector [2, 3]] ⟨[1, 2, 3], none, []⟩
    rfl).2.2.1 [.execute, .schedule 4, .execute, .execute] _ (by simp [Action.Within]) rfl
  exact ⟨_, rfl, h⟩

end Coring.TodoList
