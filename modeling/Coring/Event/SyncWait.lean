import Coring.Framework.Machine

/-!
# Waiting for a task on a thread

`sync_wait` runs an awaitable to its end and blocks the calling thread until then.  The thread
sleeps on a `lightweight_manual_reset_event`, a word with a futex behind it; the task stores its
result, sets the word and wakes the sleepers, on whatever thread it ends.  This file embeds
`sync_wait`, the promise of `sync_wait_task` and the event as one machine, with each access to the
word and each call of the kernel as a step.

Of the futex it takes over what is documented: a wait puts the thread to sleep if the word still
has the value it was given, and otherwise fails with `EAGAIN`; a sleeping thread is woken by a wake
on the word, or for no reason; and a wait may fail with another error.

The event and the task are locals of `sync_wait`: they are gone when it returns.  The word is read
and stored only while it is there.  The wake of `set()` may come later; it only names the address.
-/

namespace Coring.SyncWait

variable {α ε : Type}

/-- Where the calling thread is. -/
inductive CallerPc
  /-- In `task.start(event)`. -/
  | starting
  /-- In `wait()`, about to load the word, -/
  | loading
  /-- about to wait on the futex with zero, -/
  | calling
  | asleep
  | returned
  deriving Repr, DecidableEq

/-- Where the task is. -/
inductive TaskPc
  | created
  | running
  /-- At its final suspend point, before the store of `set()`, -/
  | storing
  /-- and before its wake. -/
  | waking
  | finished
  deriving Repr, DecidableEq

structure State (α ε : Type) where
  /-- `m_value` is not zero. -/
  value : Bool
  caller : CallerPc
  task : TaskPc
  /-- `m_result` or `m_exception` of the promise. -/
  stored : Option (Except ε α)
  /-- What `sync_wait` has returned or thrown. -/
  returned : Option (Except ε α)

def start : State α ε := ⟨false, .starting, .created, none, none⟩

inductive Action (α ε : Type)
  /-- `task.start(event)`. -/
  | start
  /-- What the task awaits ends with a value or an exception. -/
  | complete (r : Except ε α)
  /-- The two halves of `set()`. -/
  | store
  | wake
  /-- The caller loads the word, -/
  | load
  /-- or waits on the futex, -/
  | futexWait
  /-- which fails with an error other than `EAGAIN`, or ends for no reason. -/
  | interrupt

/-- The caller leaves `wait()`: `task.result()`, which there must be, and the end of `sync_wait`. -/
def leave (s : State α ε) : Option (State α ε) := do
  let r ← s.stored
  return { s with caller := .returned, returned := some r }

def step (s : State α ε) : Action α ε → Option (State α ε)
  | .start =>
      match s.caller, s.task with
      | .starting, .created => some { s with caller := .loading, task := .running }
      | _, _ => none
  | .complete r =>
      match s.task with
      | .running => some { s with task := .storing, stored := some r }
      | _ => none
  | .store =>
      match s.task with
      | .storing =>
          -- The event must not be gone.
          if s.caller = .returned then none else some { s with value := true, task := .waking }
      | _ => none
  | .wake =>
      match s.task with
      | .waking =>
          some { s with
            task := .finished, caller := if s.caller = .asleep then .loading else s.caller }
      | _ => none
  | .load =>
      match s.caller with
      | .loading => if s.value then leave s else some { s with caller := .calling }
      | _ => none
  | .futexWait =>
      match s.caller with
      -- `EAGAIN` is taken to mean that the event is set.
      | .calling => if s.value then leave s else some { s with caller := .asleep }
      | _ => none
  | .interrupt =>
      match s.caller with
      | .calling | .asleep => some { s with caller := .loading }
      | _ => none

def machine (α ε : Type) : Machine (State α ε) (Action α ε) := ⟨step⟩

/-- The body of the task is over. -/
def TaskPc.Over : TaskPc → Prop
  | .storing | .waking | .finished => True
  | .created | .running => False

/-- Its event is set. -/
def TaskPc.Set : TaskPc → Prop
  | .waking | .finished => True
  | .created | .running | .storing => False

structure Inv (s : State α ε) : Prop where
  started : s.task = .created ↔ s.caller = .starting
  stored : s.stored.isSome ↔ s.task.Over
  value : s.value = true ↔ s.task.Set
  asleep : s.caller = .asleep → s.task ≠ .finished
  returned : s.returned.isSome ↔ s.caller = .returned
  result : s.returned.isSome → s.returned = s.stored ∧ s.task.Set

lemma inv_start : Inv (start : State α ε) := by
  constructor <;> simp [start, TaskPc.Over, TaskPc.Set]

variable {s s' : State α ε}

/-- A set event comes with a result. -/
lemma Inv.leave_cases (h : Inv s) (hvalue : s.value = true) :
    ∃ r, s.stored = some r ∧
      leave s = some { s with caller := .returned, returned := some r } := by
  have hover : s.task.Over := by
    have hset := h.value.mp hvalue
    cases htask : s.task <;> rw [htask] at hset <;> first | exact hset.elim | trivial
  obtain ⟨r, hr⟩ := Option.isSome_iff_exists.mp (h.stored.mpr hover)
  exact ⟨r, hr, by rw [leave, hr]; rfl⟩

lemma Inv.leave (h : Inv s) (hvalue : s.value = true) (hcaller : s.caller ≠ .starting)
    (hleave : leave s = some s') : Inv s' := by
  obtain ⟨r, hr, heq⟩ := h.leave_cases hvalue
  rw [heq, Option.some_inj] at hleave
  rw [← hleave]
  refine ⟨?_, h.stored, h.value, by rintro ⟨⟩, by simp, fun _ => ⟨hr.symm, h.value.mp hvalue⟩⟩
  exact ⟨fun hc => absurd (h.started.mp hc) hcaller, by rintro ⟨⟩⟩

/-- The caller moves on inside `wait()`. -/
lemma Inv.callerMove (h : Inv s) {pc : CallerPc} (hnew : pc ≠ .starting ∧ pc ≠ .returned)
    (hold : s.caller ≠ .starting ∧ s.caller ≠ .returned)
    (hasleep : pc = .asleep → s.task ≠ .finished) : Inv { s with caller := pc } := by
  refine ⟨?_, h.stored, h.value, hasleep, ?_, h.result⟩
  · exact ⟨fun hc => absurd (h.started.mp hc) hold.1, fun hc => absurd hc hnew.1⟩
  · exact ⟨fun hr => absurd (h.returned.mp hr) hold.2, fun hc => absurd hc hnew.2⟩

lemma step_inv {a : Action α ε} (h : Inv s) (hstep : step s a = some s') : Inv s' := by
  cases a with
  | start =>
    simp only [step] at hstep
    split at hstep
    · next hcaller htask =>
      rw [← Option.some_inj.mp hstep]
      have hstored := h.stored
      have hvalue := h.value
      have hreturned := h.returned
      rw [htask] at hstored hvalue
      rw [hcaller] at hreturned
      exact ⟨by simp, hstored, hvalue, by rintro ⟨⟩, by simpa using hreturned,
        fun hr => absurd (hreturned.mp hr) (by rintro ⟨⟩)⟩
    · cases hstep
  | complete r =>
    simp only [step] at hstep
    split at hstep
    · next htask =>
      rw [← Option.some_inj.mp hstep]
      have hstarted := h.started
      have hvalue := h.value
      rw [htask] at hstarted hvalue
      refine ⟨by simpa using hstarted, by simp [TaskPc.Over], hvalue, by rintro - ⟨⟩, h.returned,
        fun hr => ?_⟩
      have hset := (h.result hr).2
      rw [htask] at hset
      exact hset.elim
    · cases hstep
  | store =>
    simp only [step] at hstep
    split at hstep
    · next htask =>
      split at hstep
      · cases hstep
      · next hcaller =>
        rw [← Option.some_inj.mp hstep]
        have hstarted := h.started
        have hstored := h.stored
        rw [htask] at hstarted hstored
        exact ⟨by simpa using hstarted, hstored, by simp [TaskPc.Set], by rintro - ⟨⟩, h.returned,
          fun hr => absurd (h.returned.mp hr) hcaller⟩
    · cases hstep
  | wake =>
    simp only [step] at hstep
    split at hstep
    · next htask =>
      rw [← Option.some_inj.mp hstep]
      have hstarted := h.started
      have hstored := h.stored
      have hvalue := h.value
      have hreturned := h.returned
      have hresult := h.result
      rw [htask] at hstarted hstored hvalue hresult
      by_cases hasleep : s.caller = .asleep
      · rw [hasleep] at hreturned
        simp only [if_pos hasleep]
        exact ⟨by simp, hstored, hvalue, by rintro ⟨⟩, by simpa using hreturned, hresult⟩
      · simp only [if_neg hasleep]
        exact ⟨by simpa using hstarted, hstored, hvalue, fun hc => absurd hc hasleep, hreturned,
          hresult⟩
    · cases hstep
  | load =>
    simp only [step] at hstep
    split at hstep
    · next hcaller =>
      split at hstep
      · next hvalue => exact h.leave hvalue (by rw [hcaller]; rintro ⟨⟩) hstep
      · rw [← Option.some_inj.mp hstep]
        exact h.callerMove (by simp) (by simp [hcaller]) (by rintro ⟨⟩)
    · cases hstep
  | futexWait =>
    simp only [step] at hstep
    split at hstep
    · next hcaller =>
      split at hstep
      · next hvalue => exact h.leave hvalue (by rw [hcaller]; rintro ⟨⟩) hstep
      · next hvalue =>
        rw [← Option.some_inj.mp hstep]
        refine h.callerMove (by simp) (by simp [hcaller]) fun _ htask => hvalue (h.value.mpr ?_)
        rw [htask]
        trivial
    · cases hstep
  | interrupt =>
    simp only [step] at hstep
    split at hstep
    · next hcaller =>
      rw [← Option.some_inj.mp hstep]
      exact h.callerMove (by simp) (by simp [hcaller]) (by rintro ⟨⟩)
    · next hcaller =>
      rw [← Option.some_inj.mp hstep]
      exact h.callerMove (by simp) (by simp [hcaller]) (by rintro ⟨⟩)
    · cases hstep

/-- Only the end of the body stores anything, and it finds nothing stored. -/
lemma step_stored {a : Action α ε} (h : Inv s) (hstep : step s a = some s') :
    (∃ r, a = .complete r ∧ s.stored = none ∧ s'.stored = some r) ∨
      (∀ r, a ≠ .complete r) ∧ s'.stored = s.stored := by
  have hleave (hl : leave s = some s') : s'.stored = s.stored := by
    obtain ⟨r, hr, hl⟩ := Option.bind_eq_some_iff.mp hl
    rw [← Option.some_inj.mp hl]
  cases a with
  | complete r =>
    simp only [step] at hstep
    split at hstep
    · next htask =>
      have hnone : s.stored = none := by
        rw [← Option.not_isSome_iff_eq_none, h.stored, htask]
        exact id
      rw [← Option.some_inj.mp hstep]
      exact .inl ⟨r, rfl, hnone, rfl⟩
    · cases hstep
  | load | futexWait =>
    refine .inr ⟨by rintro _ ⟨⟩, ?_⟩
    simp only [step] at hstep
    split at hstep
    · split at hstep
      · exact hleave hstep
      · rw [← Option.some_inj.mp hstep]
    · cases hstep
  | start | wake | interrupt =>
    refine .inr ⟨by rintro _ ⟨⟩, ?_⟩
    simp only [step] at hstep
    split at hstep <;> cases hstep <;> rfl
  | store =>
    refine .inr ⟨by rintro _ ⟨⟩, ?_⟩
    simp only [step] at hstep
    split at hstep
    · split at hstep
      · cases hstep
      · rw [← Option.some_inj.mp hstep]
    · cases hstep

/-- What has been stored is what the task has ended with. -/
lemma stored_of_run {as : List (Action α ε)} (hrun : (machine α ε).run start as = some s) :
    Inv s ∧ ∀ r, .complete r ∈ as ↔ s.stored = some r := by
  refine (machine α ε).run_history
    (P := fun as s => Inv s ∧ ∀ r, .complete r ∈ as ↔ s.stored = some r)
    (C := fun _ _ => True) ?_ ⟨inv_start, fun r => by simp [start]⟩
    ((machine α ε).each_of_forall (fun _ _ => trivial) _ _) hrun
  rintro as s a s' ⟨hinv, hstored⟩ - hstep
  refine ⟨step_inv hinv hstep, fun r => ?_⟩
  rw [List.mem_append, List.mem_singleton, hstored r]
  rcases step_stored hinv hstep with ⟨r', rfl, hnone, hsome⟩ | ⟨hother, hsame⟩
  · rw [hnone, hsome]
    simp [eq_comm]
  · rw [hsame]
    simp [(hother r).symm]

/-- With the event set the caller returns: it needs three steps at most, with the wake that is
still to come. -/
lemma Inv.returns (h : Inv s) (hvalue : s.value = true) :
    ∃ as s', (machine α ε).run s as = some s' ∧ s'.caller = .returned := by
  obtain ⟨r, -, hleave⟩ := h.leave_cases hvalue
  cases hcaller : s.caller with
  | starting =>
    have hset := h.value.mp hvalue
    rw [h.started.mpr hcaller] at hset
    exact hset.elim
  | loading =>
    refine ⟨[.load], { s with caller := .returned, returned := some r },
      (Machine.run_cons_eq_some _).mpr ⟨_, ?_, rfl⟩, rfl⟩
    simp only [machine, step, hcaller, hvalue, if_true, hleave]
  | calling =>
    refine ⟨[.futexWait], { s with caller := .returned, returned := some r },
      (Machine.run_cons_eq_some _).mpr ⟨_, ?_, rfl⟩, rfl⟩
    simp only [machine, step, hcaller, hvalue, if_true, hleave]
  | asleep =>
    -- The wake is still to come.
    have htask : s.task = .waking := by
      have hset := h.value.mp hvalue
      have hne := h.asleep hcaller
      cases ht : s.task <;> rw [ht] at hset hne <;>
        first | exact hset.elim | exact absurd rfl hne
    have hwake : step s .wake = some { s with task := .finished, caller := .loading } := by
      simp only [step, htask, hcaller, if_true]
    obtain ⟨r', -, hleave'⟩ := (step_inv h hwake).leave_cases hvalue
    refine ⟨[.wake, .load],
      { s with task := .finished, caller := .returned, returned := some r' },
      (Machine.run_cons_eq_some _).mpr ⟨_, hwake, (Machine.run_cons_eq_some _).mpr ⟨_, ?_, rfl⟩⟩,
      rfl⟩
    simp only [machine, step, if_pos hvalue, hleave']
  | returned => exact ⟨[], s, rfl, hcaller⟩

/-- **`sync_wait` returns what the task ends with, and it does return.**  Take any interleaving of
the caller with the task, with wakes for no reason and failing waits of any number.  What is
returned is what the task has ended with; it is returned only when the event is set, so the body
of the task is over and its word is not accessed again.  The task finds the event still there when
it sets it.  No result that is not there is read.  And once the event is set the caller is not left
asleep: the steps that are still to come bring it to its return. -/
theorem sync_wait_returns_result (as : List (Action α ε)) (s : State α ε)
    (hrun : (machine α ε).run start as = some s) :
    (∀ r, s.returned = some r → s.task.Set ∧ ∀ r', .complete r' ∈ as ↔ r' = r) ∧
    (s.task = .storing → ∃ s', step s .store = some s') ∧
    (s.caller = .loading → ∃ s', step s .load = some s') ∧
    (s.caller = .calling → ∃ s', step s .futexWait = some s') ∧
    (s.value = true → ∃ bs s', (machine α ε).run s bs = some s' ∧ s'.caller = .returned) := by
  obtain ⟨hinv, hstored⟩ := stored_of_run hrun
  refine ⟨?_, ?_, ?_, ?_, hinv.returns⟩
  · intro r hr
    obtain ⟨heq, hset⟩ := hinv.result (by rw [hr]; rfl)
    refine ⟨hset, fun r' => ?_⟩
    rw [hstored, ← heq, hr, Option.some_inj, eq_comm]
  · intro htask
    have hcaller : s.caller ≠ .returned := fun hc => by
      have hset := (hinv.result (hinv.returned.mpr hc)).2
      rw [htask] at hset
      exact hset
    simp only [step, htask]
    exact ⟨_, if_neg hcaller⟩
  · intro hcaller
    simp only [step, hcaller]
    by_cases hvalue : s.value = true
    · obtain ⟨r, -, hleave⟩ := hinv.leave_cases hvalue
      exact ⟨_, by rw [if_pos hvalue, hleave]⟩
    · exact ⟨_, if_neg hvalue⟩
  · intro hcaller
    simp only [step, hcaller]
    by_cases hvalue : s.value = true
    · obtain ⟨r, -, hleave⟩ := hinv.leave_cases hvalue
      exact ⟨_, by rw [if_pos hvalue, hleave]⟩
    · exact ⟨_, if_neg hvalue⟩

/-- The task ends while the caller is asleep, and its word is seen before its wake. -/
def seenBeforeWake : List (Action ℕ ℕ) :=
  [.start, .load, .futexWait, .complete (.ok 7), .store, .interrupt, .load]

theorem sync_wait_returns_result_before_wake :
    ∃ s : State ℕ ℕ, (machine ℕ ℕ).run start seenBeforeWake = some s ∧ s.task = .waking ∧
      s.returned = some (.ok 7) ∧ ∀ r', .complete r' ∈ seenBeforeWake ↔ r' = .ok 7 := by
  obtain ⟨hreturned, -⟩ := sync_wait_returns_result seenBeforeWake _ rfl
  exact ⟨_, rfl, rfl, rfl, (hreturned _ rfl).2⟩

end Coring.SyncWait
