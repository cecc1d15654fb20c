import Coring.Framework.Latch
import Coring.Framework.Machine

/-!
# Awaiting all of several tasks

`when_all` starts a list of tasks and continues with the list of their results.  This file embeds
`when_all_counter`, `when_all_task`, `when_all_ready_awaitable` and the collecting functions of
`include/coring/when_all.hpp` as a machine: the awaiting coroutine starts the tasks one after the
other and then gives up its share of the counter, and every task, on whatever thread it comes to
its end, stores its result or its exception and gives up its own.  The steps of all of them are
interleaved in every order.

The counter starts with one more than there are tasks, so it is a latch with the awaiting coroutine
and the tasks as its parties.  A task of the model is what one `when_all_task` wraps; what a
coroutine awaits inside it is left open, only that it ends with a value or an exception.
-/

namespace Coring.WhenAll

variable {α ε : Type}

/-- Where a `when_all_task` is. -/
inductive TaskPc
  /-- At its initial suspend point. -/
  | created
  | running
  /-- At its final suspend point, before `fetch_sub`. -/
  | notifying
  /-- It has found a one and is to resume the awaiting coroutine. -/
  | resuming
  | finished
  deriving Repr, DecidableEq

structure Task (α ε : Type) where
  pc : TaskPc
  /-- `m_result` or `m_exception`. -/
  stored : Option (Except ε α)

/-- Where the awaiting coroutine is. -/
inductive AwaiterPc
  | running
  /-- In `try_await`, with the tasks before this one started. -/
  | starting (i : ℕ)
  /-- In `try_await` of the counter, behind the store to `m_awaitingCoroutine`. -/
  | subtracting
  | suspended
  /-- Behind `co_await`. -/
  | continued
  deriving Repr, DecidableEq

structure State (α ε : Type) where
  /-- `m_count`. -/
  count : ℕ
  /-- `m_awaitingCoroutine` is set. -/
  registered : Bool
  awaiter : AwaiterPc
  tasks : List (Task α ε)
  /-- What each `co_await` has given, in order. -/
  obtained : List (Except ε (List α))
  /-- How often a task has resumed the awaiting coroutine. -/
  resumed : ℕ

/-- `when_all_ready` of `n` awaitables. -/
def start (n : ℕ) : State α ε :=
  ⟨n + 1, false, .running, List.replicate n ⟨.created, none⟩, [], 0⟩

/-- `result()` of a task that has stored something: rethrow the exception or give the value; the
loop of `when_all` over the tasks. -/
def collectResults : List (Except ε α) → Except ε (List α)
  | [] => .ok []
  | .error e :: _ => .error e
  | .ok v :: rs =>
      match collectResults rs with
      | .error e => .error e
      | .ok vs => .ok (v :: vs)

/-- The results of the tasks; `none` if one of them has not stored any, which must not be read. -/
def storedResults : List (Task α ε) → Option (List (Except ε α))
  | [] => some []
  | t :: ts =>
      match t.stored, storedResults ts with
      | some r, some rs => some (r :: rs)
      | _, _ => none

namespace State

def setTask (s : State α ε) (i : ℕ) (t : Task α ε) : State α ε :=
  { s with tasks := s.tasks.set i t }

/-- `await_resume`, and `fmap` of the collecting function. -/
def awaitResume (s : State α ε) : Option (State α ε) := do
  let rs ← storedResults s.tasks
  return { s with awaiter := .continued, obtained := s.obtained ++ [collectResults rs] }

end State

inductive Action (α ε : Type)
  /-- `co_await` up to `await_ready`. -/
  | coAwait
  /-- `try_await` starts its next task, -/
  | startNext
  /-- stores the handle when there is none left, -/
  | register
  /-- and decrements the counter. -/
  | subtract
  /-- What a task awaits ends with a value or an exception. -/
  | complete (i : ℕ) (r : Except ε α)
  /-- `fetch_sub` of `notify_awaitable_completed()`. -/
  | notify (i : ℕ)
  /-- `m_awaitingCoroutine.resume()`. -/
  | resume (i : ℕ)

def step (s : State α ε) : Action α ε → Option (State α ε)
  | .coAwait =>
      match s.awaiter with
      | .running | .continued =>
          -- `is_ready()` asks whether a coroutine has been registered.
          if s.registered then s.awaitResume else some { s with awaiter := .starting 0 }
      | _ => none
  | .startNext =>
      match s.awaiter with
      | .starting i =>
          match s.tasks[i]? with
          | some t =>
              some { s.setTask i { t with pc := .running } with awaiter := .starting (i + 1) }
          | none => none
      | _ => none
  | .register =>
      match s.awaiter with
      | .starting i =>
          if s.tasks.length ≤ i then some { s with registered := true, awaiter := .subtracting }
          else none
      | _ => none
  | .subtract =>
      match s.awaiter with
      | .subtracting =>
          -- Below zero the counter would wrap.
          if s.count = 0 then none
          else if s.count > 1 then some { s with count := s.count - 1, awaiter := .suspended }
          else { s with count := s.count - 1 }.awaitResume
      | _ => none
  | .complete i r =>
      match s.tasks[i]? with
      | some ⟨.running, _⟩ => some (s.setTask i ⟨.notifying, some r⟩)
      | _ => none
  | .notify i =>
      match s.tasks[i]? with
      | some ⟨.notifying, r⟩ =>
          if s.count = 0 then none
          else
            let pc := if s.count = 1 then .resuming else .finished
            some { s.setTask i ⟨pc, r⟩ with count := s.count - 1 }
      | _ => none
  | .resume i =>
      match s.tasks[i]? with
      | some ⟨.resuming, r⟩ =>
          -- A null handle, and a coroutine that is not suspended, must not be resumed.
          if s.registered ∧ s.awaiter = .suspended then
            { s.setTask i ⟨.finished, r⟩ with resumed := s.resumed + 1 }.awaitResume
          else none
      | _ => none

def machine (α ε : Type) : Machine (State α ε) (Action α ε) := ⟨step⟩

/-! ## The counter as a latch -/

def AwaiterPc.standing : AwaiterPc → Standing
  | .running | .starting _ | .subtracting => .holds
  | .suspended => .out
  | .continued => .baton

def TaskPc.standing : TaskPc → Standing
  | .created | .running | .notifying => .holds
  | .resuming => .baton
  | .finished => .out

def Task.standing (t : Task α ε) : Standing := t.pc.standing

/-- The awaiting coroutine and the tasks. -/
def State.parties (s : State α ε) : List Standing :=
  s.awaiter.standing :: s.tasks.map Task.standing

/-- A task has stored something exactly when it is behind its body. -/
def Task.Ok (t : Task α ε) : Prop := t.stored.isSome ↔ t.pc ≠ .created ∧ t.pc ≠ .running

/-- How many tasks the awaiting coroutine has started. -/
def startedBy (tasks : ℕ) : AwaiterPc → ℕ
  | .running => 0
  | .starting i => i
  | .subtracting | .suspended | .continued => tasks

def AwaiterPc.Registered : AwaiterPc → Prop
  | .running | .starting _ => False
  | .subtracting | .suspended | .continued => True

/-- Every `co_await` that is over has given what the tasks have stored by now. -/
def Obtained (s : State α ε) : Prop :=
  (s.obtained = [] ↔ s.awaiter ≠ .continued) ∧
    ∀ r ∈ s.obtained, ∃ rs, storedResults s.tasks = some rs ∧ r = collectResults rs

lemma obtained_of_nil {s : State α ε} (hnil : s.obtained = []) (hne : s.awaiter ≠ .continued) :
    Obtained s :=
  ⟨⟨fun _ => hne, fun _ => hnil⟩, fun r hr => by rw [hnil] at hr; cases hr⟩

structure Inv (s : State α ε) : Prop where
  latched : Latched s.count s.parties
  registered : s.registered = true ↔ s.awaiter.Registered
  ok : ∀ t ∈ s.tasks, t.Ok
  started : ∀ i t, s.tasks[i]? = some t →
    (t.pc = .created ↔ startedBy s.tasks.length s.awaiter ≤ i)
  resumed : s.resumed = 0 ∨ s.awaiter = .continued ∧ s.resumed = 1
  obtained : Obtained s

lemma inv_start (n : ℕ) : Inv (start n : State α ε) where
  latched := by
    have hparties : (start n : State α ε).parties = List.replicate (n + 1) .holds := by
      simp only [State.parties, start, List.map_replicate, List.replicate_succ]
      rfl
    rw [hparties]
    exact Latched.replicate (Nat.succ_ne_zero n)
  registered := by simp [start, AwaiterPc.Registered]
  ok := by
    intro t ht
    rw [(List.mem_replicate.mp ht).2]
    simp [Task.Ok]
  started := by
    intro i t ht
    rw [(List.mem_replicate.mp (List.mem_of_getElem? ht)).2]
    simp [start, startedBy]
  resumed := .inl rfl
  obtained := obtained_of_nil rfl (by rintro ⟨⟩)

/-! ## Reading the results -/

lemma storedResults_isSome {tasks : List (Task α ε)} (h : ∀ t ∈ tasks, t.stored.isSome) :
    ∃ rs, storedResults tasks = some rs := by
  induction tasks with
  | nil => exact ⟨[], rfl⟩
  | cons t ts ih =>
    obtain ⟨rs, hrs⟩ := ih fun u hu => h u (List.mem_cons_of_mem _ hu)
    obtain ⟨r, hr⟩ := Option.isSome_iff_exists.mp (h t (List.mem_cons_self ..))
    exact ⟨r :: rs, by simp only [storedResults, hr, hrs]⟩

lemma storedResults_eq_some_iff {tasks : List (Task α ε)} {rs : List (Except ε α)} :
    storedResults tasks = some rs ↔ tasks.map Task.stored = rs.map some := by
  induction tasks generalizing rs with
  | nil =>
    rw [storedResults, Option.some_inj, List.map_nil]
    constructor
    · rintro rfl
      rfl
    · exact fun h => (List.map_eq_nil_iff.mp h.symm).symm
  | cons t ts ih =>
    cases rs with
    | nil => cases ht : t.stored <;> cases hts : storedResults ts <;> simp [storedResults, ht, hts]
    | cons r rs =>
      rw [List.map_cons, List.map_cons, List.cons.injEq, ← ih]
      cases ht : t.stored <;> cases hts : storedResults ts <;> simp [storedResults, ht, hts]

/-- The collected result is that of all tasks, -/
lemma collectResults_eq_ok_iff {rs : List (Except ε α)} {vs : List α} :
    collectResults rs = .ok vs ↔ rs = vs.map .ok := by
  induction rs generalizing vs with
  | nil =>
    rw [collectResults, Except.ok.injEq]
    constructor
    · rintro rfl
      rfl
    · exact fun h => (List.map_eq_nil_iff.mp h.symm).symm
  | cons r rs ih =>
    cases r with
    | error e => cases vs <;> simp [collectResults]
    | ok v =>
      rw [collectResults]
      cases hrest : collectResults rs with
      | error e =>
        cases vs with
        | nil => simp
        | cons w ws =>
          have hne : rs ≠ ws.map .ok := fun h => by
            rw [ih.mpr h] at hrest
            cases hrest
          simp [hne]
      | ok us =>
        have hrs := ih.mp hrest
        cases vs with
        | nil => simp
        | cons w ws =>
          have hinj : Function.Injective (Except.ok : α → Except ε α) := fun _ _ h => by
            cases h
            rfl
          rw [hrs, List.map_cons, List.cons.injEq, Except.ok.injEq, Except.ok.injEq,
            List.cons.injEq, List.map_inj_right (fun _ _ h => hinj h)]

/-- or the exception of the first task that has thrown. -/
lemma collectResults_eq_error_iff {rs : List (Except ε α)} {e : ε} :
    collectResults rs = .error e ↔ ∃ (vs : List α) (rest : List (Except ε α)),
      rs = vs.map .ok ++ .error e :: rest := by
  induction rs with
  | nil => simp [collectResults]
  | cons r rs ih =>
    cases r with
    | error e' =>
      rw [collectResults, Except.error.injEq]
      constructor
      · rintro rfl
        exact ⟨[], rs, rfl⟩
      · rintro ⟨vs, rest, h⟩
        cases vs with
        | nil =>
          cases h
          rfl
        | cons v vs => cases h
    | ok v =>
      have hstep : collectResults (.ok v :: rs) = .error e ↔ collectResults rs = .error e := by
        rw [collectResults]
        cases collectResults rs <;> simp
      rw [hstep, ih]
      constructor
      · rintro ⟨vs, rest, rfl⟩
        exact ⟨v :: vs, rest, rfl⟩
      · rintro ⟨vs, rest, h⟩
        cases vs with
        | nil => cases h
        | cons w vs =>
          cases h
          exact ⟨vs, rest, rfl⟩

/-! ## The steps -/

variable {s s' : State α ε} {i : ℕ} {t : Task α ε}

lemma parties_task (hi : s.tasks[i]? = some t) : s.parties[i + 1]? = some t.pc.standing := by
  rw [State.parties, List.getElem?_cons_succ, List.getElem?_map, hi]
  rfl

lemma parties_setTask (s : State α ε) (i : ℕ) (t : Task α ε) :
    (s.setTask i t).parties = s.parties.set (i + 1) t.pc.standing := by
  simp only [State.parties, State.setTask, List.map_set, List.set_cons_succ, Task.standing]

lemma parties_setTask_of_eq (hi : s.tasks[i]? = some t) {t' : Task α ε}
    (ht : t'.pc.standing = t.pc.standing) : (s.setTask i t').parties = s.parties := by
  have hview : t'.standing = t.standing := ht
  simp only [State.parties, State.setTask]
  rw [map_set_of_eq Task.standing hi hview]

/-- Whoever holds the latch finds the counter above zero. -/
lemma Inv.count_ne_zero_of_awaiter (h : Inv s) (hs : s.awaiter.standing = .holds) :
    s.count ≠ 0 := by
  have hmem : .holds ∈ s.parties := by
    rw [State.parties, hs]
    exact List.mem_cons_self ..
  exact h.latched.ne_zero_of_holds hmem

lemma Inv.count_ne_zero_of_task (h : Inv s) (hi : s.tasks[i]? = some t)
    (ht : t.pc.standing = .holds) : s.count ≠ 0 := by
  have hmem : .holds ∈ s.parties := ht ▸ List.mem_of_getElem? (parties_task hi)
  exact h.latched.ne_zero_of_holds hmem

lemma Inv.obtained_eq_nil (h : Inv s) (hs : s.awaiter ≠ .continued) : s.obtained = [] :=
  h.obtained.1.mpr hs

lemma Inv.resumed_eq_zero (h : Inv s) (hs : s.awaiter ≠ .continued) : s.resumed = 0 :=
  h.resumed.resolve_right fun hcontinued => hs hcontinued.1

/-- Behind its `co_await` the awaiting coroutine has the baton. -/
lemma Inv.finished_of_continued (h : Inv s) (hs : s.awaiter = .continued) :
    ∀ t ∈ s.tasks, t.pc = .finished := by
  have hlatched := h.latched
  rw [State.parties, hs] at hlatched
  intro t ht
  have hout := hlatched.baton_unique _ (List.mem_map.mpr ⟨t, ht, rfl⟩)
  obtain ⟨pc, r⟩ := t
  cases pc <;> first | rfl | cases hout

/-- A task that is not through yet finds the awaiting coroutine still awaiting. -/
lemma Inv.not_continued (h : Inv s) (hi : s.tasks[i]? = some t) (ht : t.pc ≠ .finished) :
    s.awaiter ≠ .continued :=
  fun hs => ht (h.finished_of_continued hs t (List.mem_of_getElem? hi))

/-- What a step of a task must keep of it. -/
structure TaskStep (t t' : Task α ε) : Prop where
  ok : t'.Ok
  created : t'.pc ≠ .created ∧ t.pc ≠ .created

lemma Inv.started_set (h : Inv s) (hi : s.tasks[i]? = some t) {t' : Task α ε}
    (ht : TaskStep t t') (j : ℕ) (u : Task α ε) (hj : (s.tasks.set i t')[j]? = some u) :
    u.pc = .created ↔ startedBy (s.tasks.set i t').length s.awaiter ≤ j := by
  rw [List.length_set]
  rw [List.getElem?_set] at hj
  split at hj
  · next hij =>
    subst hij
    rw [if_pos (List.getElem?_eq_some_iff.mp hi).1, Option.some_inj] at hj
    rw [← hj]
    exact ⟨fun hc => absurd hc ht.created.1,
      fun hle => absurd ((h.started i t hi).mpr hle) ht.created.2⟩
  · exact h.started j u hj

lemma Inv.ok_set (h : Inv s) {t' : Task α ε} (ht : t'.Ok) : ∀ u ∈ s.tasks.set i t', u.Ok := by
  intro u hu
  rcases List.mem_or_eq_of_mem_set hu with hmem | rfl
  · exact h.ok u hmem
  · exact ht

/-- A task ends. -/
lemma Inv.complete (h : Inv s) {r : Option (Except ε α)} (hi : s.tasks[i]? = some ⟨.running, r⟩)
    (r' : Except ε α) : Inv (s.setTask i ⟨.notifying, some r'⟩) where
  latched := by
    have hparties : (s.setTask i ⟨.notifying, some r'⟩).parties = s.parties :=
      parties_setTask_of_eq hi rfl
    rw [hparties]
    exact h.latched
  registered := h.registered
  ok := h.ok_set (by simp [Task.Ok])
  started := h.started_set hi ⟨by simp [Task.Ok], by simp⟩
  resumed := h.resumed
  obtained := by
    have hne := h.not_continued hi (by rintro ⟨⟩)
    exact obtained_of_nil (h.obtained_eq_nil hne) hne

/-- A task gives its share of the counter up. -/
lemma Inv.notify (h : Inv s) {r : Option (Except ε α)}
    (hi : s.tasks[i]? = some ⟨.notifying, r⟩) :
    Inv { s.setTask i ⟨if s.count = 1 then .resuming else .finished, r⟩ with
      count := s.count - 1 } where
  latched := by
    have hstanding : TaskPc.standing (if s.count = 1 then .resuming else .finished)
        = if s.count = 1 then .baton else .out := by
      split <;> rfl
    have hrelease := h.latched.release (parties_task hi)
    rw [← hstanding] at hrelease
    have hset := parties_setTask s i ⟨if s.count = 1 then .resuming else .finished, r⟩
    rw [← hset] at hrelease
    exact hrelease
  registered := h.registered
  ok := by
    have hr := h.ok _ (List.mem_of_getElem? hi)
    refine h.ok_set ?_
    split <;> simpa [Task.Ok] using hr
  started := by
    have hr := h.ok _ (List.mem_of_getElem? hi)
    refine h.started_set hi ⟨?_, ?_⟩
    · split <;> simpa [Task.Ok] using hr
    · split <;> simp
  resumed := h.resumed
  obtained := by
    have hne := h.not_continued hi (by rintro ⟨⟩)
    exact obtained_of_nil (h.obtained_eq_nil hne) hne

/-- The task with the baton finds the awaiting coroutine registered and suspended. -/
lemma Inv.awaiter_suspended (h : Inv s) {r : Option (Except ε α)}
    (hi : s.tasks[i]? = some ⟨.resuming, r⟩) : s.awaiter = .suspended ∧ s.registered = true := by
  have hmem : .baton ∈ s.tasks.map Task.standing :=
    List.mem_map.mpr ⟨_, List.mem_of_getElem? hi, rfl⟩
  have hout : s.awaiter.standing = .out := h.latched.waiting_out hmem
  have hs : s.awaiter = .suspended := by
    cases hpc : s.awaiter <;> rw [hpc] at hout <;> first | rfl | cases hout
  exact ⟨hs, h.registered.mpr (by rw [hs]; trivial)⟩

lemma awaitResume_cases (h : s.awaitResume = some s') :
    ∃ rs, storedResults s.tasks = some rs ∧
      s' = { s with awaiter := .continued, obtained := s.obtained ++ [collectResults rs] } := by
  obtain ⟨rs, hrs, h⟩ := Option.bind_eq_some_iff.mp h
  exact ⟨rs, hrs, (Option.some_inj.mp h).symm⟩

/-- All that `await_resume` relies on: the awaiting coroutine has just got the baton. -/
structure Ready (s : State α ε) : Prop where
  latched : Latched s.count (.baton :: s.tasks.map Task.standing)
  registered : s.registered = true
  ok : ∀ t ∈ s.tasks, t.Ok
  created : ∀ t ∈ s.tasks, t.pc ≠ .created
  resumed : s.resumed ≤ 1
  obtained : ∀ r ∈ s.obtained, ∃ rs, storedResults s.tasks = some rs ∧ r = collectResults rs

/-- Then there is a result to be read of every task, -/
lemma Ready.succeeds (h : Ready s) : ∃ s', s.awaitResume = some s' := by
  have hstored : ∀ t ∈ s.tasks, t.stored.isSome := by
    intro t ht
    have hout := h.latched.baton_unique _ (List.mem_map.mpr ⟨t, ht, rfl⟩)
    refine (h.ok t ht).mpr ⟨h.created t ht, fun hrunning => ?_⟩
    rw [Task.standing, hrunning] at hout
    cases hout
  obtain ⟨rs, hrs⟩ := storedResults_isSome hstored
  exact ⟨_, by rw [State.awaitResume, hrs]; rfl⟩

/-- and the coroutine goes on. -/
lemma Ready.inv (h : Ready s) (hs : s.awaitResume = some s') : Inv s' := by
  obtain ⟨rs, hrs, rfl⟩ := awaitResume_cases hs
  refine ⟨h.latched, ⟨fun _ => trivial, fun _ => h.registered⟩, h.ok, ?_, ?_, ?_⟩
  · intro i t hi
    have hlt := (List.getElem?_eq_some_iff.mp hi).1
    exact ⟨fun hc => absurd hc (h.created t (List.mem_of_getElem? hi)),
      fun hle => absurd hlt (Nat.not_lt_of_le hle)⟩
  · rcases Nat.eq_zero_or_pos s.resumed with hzero | hpos
    · exact .inl hzero
    · exact .inr ⟨rfl, Nat.le_antisymm h.resumed hpos⟩
  · refine ⟨by simp, fun r hr => ?_⟩
    rcases List.mem_append.mp hr with hmem | hmem
    · exact h.obtained r hmem
    · exact ⟨rs, hrs, List.mem_singleton.mp hmem⟩

/-- Behind `try_await` every task has been started. -/
lemma Inv.not_created (h : Inv s) (hs : startedBy s.tasks.length s.awaiter = s.tasks.length) :
    ∀ t ∈ s.tasks, t.pc ≠ .created := by
  intro t ht hc
  obtain ⟨i, hi, rfl⟩ := List.getElem_of_mem ht
  have hle := (h.started i _ (List.getElem?_eq_getElem hi)).mp hc
  omega

lemma Inv.ready_of_continued (h : Inv s) (hs : s.awaiter = .continued) : Ready s where
  latched := by
    have hlatched := h.latched
    rw [State.parties, hs] at hlatched
    exact hlatched
  registered := h.registered.mpr (by rw [hs]; trivial)
  ok := h.ok
  created := h.not_created (by rw [hs]; rfl)
  resumed := by rcases h.resumed with hzero | ⟨-, hone⟩ <;> omega
  obtained := h.obtained.2

lemma Inv.ready_of_subtracting (h : Inv s) (hs : s.awaiter = .subtracting) (hone : s.count = 1) :
    Ready { s with count := s.count - 1 } where
  latched := by
    have hheld : s.parties[0]? = some .holds := by
      rw [State.parties, hs]
      rfl
    have hrelease := h.latched.release hheld
    rw [if_pos hone, State.parties, List.set_cons_zero] at hrelease
    exact hrelease
  registered := h.registered.mpr (by rw [hs]; trivial)
  ok := h.ok
  created := h.not_created (by rw [hs]; rfl)
  resumed := by
    have hzero := h.resumed_eq_zero (by rw [hs]; rintro ⟨⟩)
    simp [hzero]
  obtained := by
    have hnil := h.obtained_eq_nil (by rw [hs]; rintro ⟨⟩)
    simp [hnil]

lemma Inv.ready_of_resuming (h : Inv s) {r : Option (Except ε α)}
    (hi : s.tasks[i]? = some ⟨.resuming, r⟩) :
    Ready { s.setTask i ⟨.finished, r⟩ with resumed := s.resumed + 1 } := by
  obtain ⟨hs, hregistered⟩ := h.awaiter_suspended hi
  have hne : s.awaiter ≠ .continued := by
    rw [hs]
    rintro ⟨⟩
  have hok : Task.Ok (⟨.finished, r⟩ : Task α ε) := by
    have hr := h.ok _ (List.mem_of_getElem? hi)
    simpa [Task.Ok] using hr
  refine ⟨?_, hregistered, h.ok_set hok, ?_, ?_, ?_⟩
  · have hwaits : (s.parties.set (i + 1) .out)[0]? = some .out := by
      rw [State.parties, hs]
      rfl
    have hgiven := h.latched.handOver (parties_task hi) hwaits
    have hset := parties_setTask s i ⟨.finished, r⟩
    simp only [TaskPc.standing] at hset
    rw [← hset, State.parties, List.set_cons_zero] at hgiven
    exact hgiven
  · intro t ht
    rcases List.mem_or_eq_of_mem_set ht with hmem | rfl
    · exact h.not_created (by rw [hs]; rfl) t hmem
    · simp
  · have hzero := h.resumed_eq_zero hne
    show s.resumed + 1 ≤ 1
    omega
  · have hnil := h.obtained_eq_nil hne
    simp [State.setTask, hnil]

/-- The awaiting coroutine moves on in `try_await`. -/
lemma Inv.awaiterMove (h : Inv s) {pc : AwaiterPc} (hpc : pc.standing = s.awaiter.standing)
    (hne : s.awaiter ≠ .continued) (hpcne : pc ≠ .continued) {registered : Bool}
    (hregistered : registered = true ↔ pc.Registered)
    (hstarted : ∀ j < s.tasks.length,
      startedBy s.tasks.length pc ≤ j ↔ startedBy s.tasks.length s.awaiter ≤ j) :
    Inv { s with awaiter := pc, registered := registered } where
  latched := by
    have hparties : { s with awaiter := pc, registered := registered }.parties = s.parties := by
      simp only [State.parties, hpc]
    rw [hparties]
    exact h.latched
  registered := hregistered
  ok := h.ok
  started := by
    intro i t hi
    exact (h.started i t hi).trans (hstarted i (List.getElem?_eq_some_iff.mp hi).1).symm
  resumed := .inl (h.resumed_eq_zero hne)
  obtained := obtained_of_nil (h.obtained_eq_nil hne) hpcne

/-- The awaiting coroutine gives its share up with tasks still to come. -/
lemma Inv.subtract (h : Inv s) (hs : s.awaiter = .subtracting) (hmore : s.count > 1) :
    Inv { s with count := s.count - 1, awaiter := .suspended } where
  latched := by
    have hheld : s.parties[0]? = some .holds := by
      rw [State.parties, hs]
      rfl
    have hrelease := h.latched.release hheld
    rw [if_neg (by omega), State.parties, List.set_cons_zero] at hrelease
    exact hrelease
  registered := ⟨fun _ => trivial, fun _ => h.registered.mpr (by rw [hs]; trivial)⟩
  ok := h.ok
  started := by
    have hstarted := h.started
    rw [hs] at hstarted
    exact hstarted
  resumed := .inl (h.resumed_eq_zero (by rw [hs]; rintro ⟨⟩))
  obtained := obtained_of_nil (h.obtained_eq_nil (by rw [hs]; rintro ⟨⟩)) (by rintro ⟨⟩)

lemma Inv.startNext (h : Inv s) (hs : s.awaiter = .starting i) (hi : s.tasks[i]? = some t) :
    Inv { s.setTask i { t with pc := .running } with awaiter := .starting (i + 1) } := by
  have hcreated : t.pc = .created := (h.started i t hi).mpr (by rw [hs]; exact Nat.le_refl i)
  have hne : s.awaiter ≠ .continued := by
    rw [hs]
    rintro ⟨⟩
  have hparties : (s.setTask i { t with pc := .running }).parties = s.parties :=
    parties_setTask_of_eq hi (by rw [hcreated]; rfl)
  refine ⟨?_, ?_, ?_, ?_, .inl (h.resumed_eq_zero hne), ?_⟩
  · have hlatched := h.latched
    rw [← hparties, State.parties, State.setTask, hs] at hlatched
    exact hlatched
  · have hregistered := h.registered
    rw [hs] at hregistered
    exact hregistered
  · have ht := h.ok t (List.mem_of_getElem? hi)
    refine h.ok_set ?_
    simpa [Task.Ok, hcreated] using ht
  · intro j u hj
    simp only [State.setTask, List.getElem?_set] at hj
    split at hj
    · next hij =>
      subst hij
      rw [if_pos (List.getElem?_eq_some_iff.mp hi).1, Option.some_inj] at hj
      rw [← hj]
      simp [startedBy]
    · have hu := h.started j u hj
      rw [hs] at hu
      rw [hu]
      simp only [startedBy]
      omega
  · exact obtained_of_nil (h.obtained_eq_nil hne) (by rintro ⟨⟩)

lemma step_inv {a : Action α ε} (h : Inv s) (hstep : step s a = some s') : Inv s' := by
  cases a with
  | coAwait =>
    simp only [step] at hstep
    split at hstep
    · next hs =>
      have hregistered : s.registered ≠ true := fun hr => by
        have := h.registered.mp hr
        rw [hs] at this
        exact this
      rw [if_neg hregistered, Option.some_inj] at hstep
      rw [← hstep]
      exact h.awaiterMove (by rw [hs]; rfl) (by rw [hs]; rintro ⟨⟩) (by rintro ⟨⟩)
        ⟨fun hr => absurd hr hregistered, False.elim⟩ fun j _ => by rw [hs]; rfl
    · next hs =>
      have hready := h.ready_of_continued hs
      rw [if_pos hready.registered] at hstep
      exact hready.inv hstep
    · cases hstep
  | startNext =>
    simp only [step] at hstep
    split at hstep
    · next i hs =>
      split at hstep
      · next t hi =>
        rw [← Option.some_inj.mp hstep]
        exact h.startNext hs hi
      · cases hstep
    · cases hstep
  | register =>
    simp only [step] at hstep
    split at hstep
    · next i hs =>
      split at hstep
      · next hle =>
        rw [← Option.some_inj.mp hstep]
        refine h.awaiterMove (by rw [hs]; rfl) (by rw [hs]; rintro ⟨⟩) (by rintro ⟨⟩)
          ⟨fun _ => trivial, fun _ => rfl⟩ fun j hj => ?_
        rw [hs]
        simp only [startedBy]
        omega
      · cases hstep
    · cases hstep
  | subtract =>
    simp only [step] at hstep
    split at hstep
    · next hs =>
      have hcount := h.count_ne_zero_of_awaiter (by rw [hs]; rfl)
      rw [if_neg hcount] at hstep
      split at hstep
      · next hmore =>
        rw [← Option.some_inj.mp hstep]
        exact h.subtract hs hmore
      · exact (h.ready_of_subtracting hs (by omega)).inv hstep
    · cases hstep
  | complete i r =>
    simp only [step] at hstep
    split at hstep
    · next r' hi =>
      rw [← Option.some_inj.mp hstep]
      exact h.complete hi r
    · cases hstep
  | notify i =>
    simp only [step] at hstep
    split at hstep
    · next r hi =>
      rw [if_neg (h.count_ne_zero_of_task hi rfl), Option.some_inj] at hstep
      rw [← hstep]
      exact h.notify hi
    · cases hstep
  | resume i =>
    simp only [step] at hstep
    split at hstep
    · next r hi =>
      split at hstep
      · exact (h.ready_of_resuming hi).inv hstep
      · cases hstep
    · cases hstep

/-! ## Runs -/

lemma Inv.of_run {n : ℕ} {as : List (Action α ε)} (hrun : (machine α ε).run (start n) as = some s) :
    Inv s :=
  (machine α ε).run_invariant (fun _ _ _ => step_inv) (inv_start n) hrun

/-- What the tasks have stored. -/
def State.view (s : State α ε) : List (Option (Except ε α)) := s.tasks.map Task.stored

lemma awaitResume_view (h : s.awaitResume = some s') : s'.view = s.view := by
  obtain ⟨rs, -, rfl⟩ := awaitResume_cases h
  rfl

lemma setTask_view (hi : s.tasks[i]? = some t) (pc : TaskPc) :
    (s.setTask i { t with pc := pc }).view = s.view := by
  have hview : Task.stored { t with pc := pc } = t.stored := rfl
  rw [State.view, State.setTask, map_set_of_eq Task.stored hi hview]
  rfl

/-- Only the end of a task stores anything, and it finds nothing stored. -/
lemma step_view {a : Action α ε} (h : Inv s) (hstep : step s a = some s') :
    (∃ i r, a = .complete i r ∧ s.view[i]? = some none ∧ s'.view = s.view.set i (some r)) ∨
      (∀ i r, a ≠ .complete i r) ∧ s'.view = s.view := by
  cases a with
  | complete i r =>
    simp only [step] at hstep
    split at hstep
    · next r' hi =>
      rw [← Option.some_inj.mp hstep]
      refine .inl ⟨i, r, rfl, ?_, ?_⟩
      · have hr := h.ok _ (List.mem_of_getElem? hi)
        rw [State.view, List.getElem?_map, hi]
        cases r' with
        | none => rfl
        | some r' => simp [Task.Ok] at hr
      · simp only [State.view, State.setTask, List.map_set]
    · cases hstep
  | coAwait =>
    refine .inr ⟨by rintro _ _ ⟨⟩, ?_⟩
    simp only [step] at hstep
    split at hstep
    · split at hstep
      · exact awaitResume_view hstep
      · rw [← Option.some_inj.mp hstep]
        rfl
    · split at hstep
      · exact awaitResume_view hstep
      · rw [← Option.some_inj.mp hstep]
        rfl
    · cases hstep
  | startNext =>
    refine .inr ⟨by rintro _ _ ⟨⟩, ?_⟩
    simp only [step] at hstep
    split at hstep
    · split at hstep
      · next t hi =>
        rw [← Option.some_inj.mp hstep]
        exact setTask_view hi .running
      · cases hstep
    · cases hstep
  | register =>
    refine .inr ⟨by rintro _ _ ⟨⟩, ?_⟩
    simp only [step] at hstep
    split at hstep
    · split at hstep
      · rw [← Option.some_inj.mp hstep]
        rfl
      · cases hstep
    · cases hstep
  | subtract =>
    refine .inr ⟨by rintro _ _ ⟨⟩, ?_⟩
    simp only [step] at hstep
    split at hstep
    · split at hstep
      · cases hstep
      · split at hstep
        · rw [← Option.some_inj.mp hstep]
          rfl
        · have hview := awaitResume_view hstep
          exact hview
    · cases hstep
  | notify i =>
    refine .inr ⟨by rintro _ _ ⟨⟩, ?_⟩
    simp only [step] at hstep
    split at hstep
    · next r hi =>
      split at hstep
      · cases hstep
      · rw [← Option.some_inj.mp hstep]
        exact setTask_view hi _
    · cases hstep
  | resume i =>
    refine .inr ⟨by rintro _ _ ⟨⟩, ?_⟩
    simp only [step] at hstep
    split at hstep
    · next r hi =>
      split at hstep
      · exact (awaitResume_view hstep).trans (setTask_view hi .finished)
      · cases hstep
    · cases hstep

/-- What the tasks have stored is what they have ended with. -/
lemma view_of_run {n : ℕ} {as : List (Action α ε)}
    (hrun : (machine α ε).run (start n) as = some s) :
    s.view.length = n ∧ ∀ i r, .complete i r ∈ as ↔ s.view[i]? = some (some r) := by
  have hhistory : Inv s ∧ s.view.length = n ∧
      ∀ i r, .complete i r ∈ as ↔ s.view[i]? = some (some r) := by
    refine (machine α ε).run_history
      (P := fun as s => Inv s ∧ s.view.length = n ∧
        ∀ i r, .complete i r ∈ as ↔ s.view[i]? = some (some r))
      (C := fun _ _ => True) ?_ ?_ ((machine α ε).each_of_forall (fun _ _ => trivial) _ _) hrun
    · rintro as s a s' ⟨hinv, hlength, hstored⟩ - hstep
      refine ⟨step_inv hinv hstep, ?_⟩
      rcases step_view hinv hstep with ⟨i, r, rfl, hnone, hview⟩ | ⟨hother, hview⟩
      · refine ⟨by rw [hview, List.length_set, hlength], fun j r' => ?_⟩
        rw [List.mem_append, List.mem_singleton, hview, List.getElem?_set]
        by_cases hij : i = j
        · subst hij
          have hlt := (List.getElem?_eq_some_iff.mp hnone).1
          rw [hstored i r', hnone, if_pos rfl, if_pos hlt]
          simp [eq_comm]
        · have hne : Action.complete j r' ≠ Action.complete i r := by
            rintro ⟨⟩
            exact hij rfl
          rw [hstored j r', if_neg hij]
          simp [hne]
      · refine ⟨by rw [hview, hlength], fun j r' => ?_⟩
        rw [List.mem_append, List.mem_singleton, hview, hstored j r']
        simp [(hother j r').symm]
    · refine ⟨inv_start n, ?_, fun i r => ?_⟩
      · simp [State.view, start]
      · simp only [State.view, start, List.map_replicate, List.not_mem_nil, false_iff]
        intro h
        cases (List.mem_replicate.mp (List.mem_of_getElem? h)).2
  exact hhistory.2

/-- **All results, each in its place.**  Take any number of tasks and any interleaving of their
steps with those of the coroutine that awaits them.  When the coroutine is behind its `co_await`,
every task is at its end, and what this and every further `co_await` has given is the list of what
the tasks have ended with, in the order of the tasks, or the exception of the first of them that
has thrown.  Before, nothing has been read; while the coroutine is suspended some task is not
through; and it is resumed at most once. -/
theorem obtained_is_all_results (n : ℕ) (as : List (Action α ε)) (s : State α ε)
    (hrun : (machine α ε).run (start n) as = some s) :
    (s.awaiter = .continued → ∃ rs : List (Except ε α), rs.length = n ∧
      (∀ i r, .complete i r ∈ as ↔ rs[i]? = some r) ∧ (∀ t ∈ s.tasks, t.pc = .finished) ∧
      s.obtained ≠ [] ∧ ∀ r ∈ s.obtained, r = collectResults rs ∧
        (∀ vs, r = .ok vs ↔ rs = vs.map .ok) ∧
        ∀ e, r = .error e ↔ ∃ (vs : List α) (rest : List (Except ε α)),
          rs = vs.map .ok ++ .error e :: rest) ∧
    (s.awaiter ≠ .continued → s.obtained = []) ∧
    (s.awaiter = .suspended → ∃ t ∈ s.tasks, t.pc ≠ .finished) ∧
    s.resumed ≤ 1 := by
  have hinv := Inv.of_run hrun
  obtain ⟨hlength, hstored⟩ := view_of_run hrun
  refine ⟨?_, hinv.obtained_eq_nil, ?_, ?_⟩
  · intro hs
    have hsome : s.obtained ≠ [] := fun hnil => hinv.obtained.1.mp hnil hs
    obtain ⟨r, hr⟩ := List.exists_mem_of_ne_nil _ hsome
    obtain ⟨rs, hrs, -⟩ := hinv.obtained.2 r hr
    have hview : s.view = rs.map some := storedResults_eq_some_iff.mp hrs
    refine ⟨rs, ?_, ?_, hinv.finished_of_continued hs, hsome, ?_⟩
    · rw [← hlength, hview, List.length_map]
    · intro i r
      rw [hstored, hview, List.getElem?_map]
      simp
    · intro r' hr'
      obtain ⟨rs', hrs', rfl⟩ := hinv.obtained.2 r' hr'
      rw [hrs, Option.some_inj] at hrs'
      rw [hrs']
      exact ⟨rfl, fun _ => collectResults_eq_ok_iff, fun _ => collectResults_eq_error_iff⟩
  · intro hs
    have hlatched := hinv.latched
    rw [State.parties, hs] at hlatched
    obtain ⟨p, hp, hout⟩ := hlatched.exists_not_out
    obtain ⟨t, ht, rfl⟩ := List.mem_map.mp hp
    exact ⟨t, ht, fun hfinished => hout (by rw [Task.standing, hfinished]; rfl)⟩
  · rcases hinv.resumed with hzero | ⟨-, hone⟩ <;> omega

/-- Two tasks; the second ends first, with an exception, and so does the first. -/
def secondEndsFirst : List (Action ℕ ℕ) :=
  [.coAwait, .startNext, .startNext, .complete 1 (.error 8), .notify 1, .register, .subtract,
    .complete 0 (.error 7), .notify 0, .resume 0]

theorem obtained_is_all_results_second_first :
    ∃ s : State ℕ ℕ, (machine ℕ ℕ).run (start 2) secondEndsFirst = some s ∧
      s.obtained ≠ [] ∧ ∀ r ∈ s.obtained, r = .error 7 := by
  obtain ⟨hcontinued, -⟩ := obtained_is_all_results 2 secondEndsFirst _ rfl
  obtain ⟨rs, hlength, hrs, -, hsome, hall⟩ := hcontinued rfl
  have hfirst : rs[0]? = some (.error 7) := (hrs 0 _).mp (by simp [secondEndsFirst])
  refine ⟨_, rfl, hsome, fun r hr => ((hall r hr).2.2 7).mpr ?_⟩
  obtain ⟨rest, rfl⟩ : ∃ rest, rs = .error 7 :: rest := by
    cases rs with
    | nil => cases hfirst
    | cons a rest =>
      cases hfirst
      exact ⟨rest, rfl⟩
  exact ⟨[], rest, rfl⟩

/-- What a party is about to do to the counter, or to the results. -/
inductive Pending : State α ε → Action α ε → Prop
  | coAwait {s : State α ε} (hs : s.awaiter = .running ∨ s.awaiter = .continued) :
      Pending s .coAwait
  | subtract {s : State α ε} (hs : s.awaiter = .subtracting) : Pending s .subtract
  | notify {s : State α ε} {i : ℕ} {r : Option (Except ε α)}
      (hi : s.tasks[i]? = some ⟨.notifying, r⟩) : Pending s (.notify i)
  | resume {s : State α ε} {i : ℕ} {r : Option (Except ε α)}
      (hi : s.tasks[i]? = some ⟨.resuming, r⟩) : Pending s (.resume i)

/-- **No step of the protocol fails.**  No decrement takes the counter below zero, the task that
resumes the awaiting coroutine finds its handle stored and the coroutine suspended, and whenever
the results are collected, also by a further `co_await`, each task has one to be read. -/
theorem counter_step_succeeds (n : ℕ) (as : List (Action α ε)) (s : State α ε)
    (hrun : (machine α ε).run (start n) as = some s) {a : Action α ε} (ha : Pending s a) :
    ∃ s', step s a = some s' := by
  have hinv := Inv.of_run hrun
  cases ha with
  | coAwait hs =>
    rcases hs with hs | hs
    · have hregistered : s.registered ≠ true := fun hr => by
        have hpc := hinv.registered.mp hr
        rw [hs] at hpc
        exact hpc
      exact ⟨_, by simp only [step, hs]; rw [if_neg hregistered]⟩
    · have hready := hinv.ready_of_continued hs
      obtain ⟨s', hs'⟩ := hready.succeeds
      exact ⟨s', by simp only [step, hs]; rw [if_pos hready.registered, hs']⟩
  | subtract hs =>
    have hcount := hinv.count_ne_zero_of_awaiter (by rw [hs]; rfl)
    simp only [step, hs]
    rw [if_neg hcount]
    by_cases hmore : s.count > 1
    · exact ⟨_, if_pos hmore⟩
    · obtain ⟨s', hs'⟩ := (hinv.ready_of_subtracting hs (by omega)).succeeds
      rw [hs] at hs'
      exact ⟨s', by rw [if_neg hmore, hs']⟩
  | notify hi =>
    have hcount := hinv.count_ne_zero_of_task hi rfl
    simp only [step, hi]
    exact ⟨_, if_neg hcount⟩
  | resume hi =>
    obtain ⟨hs, hregistered⟩ := hinv.awaiter_suspended hi
    obtain ⟨s', hs'⟩ := (hinv.ready_of_resuming hi).succeeds
    simp only [step, hi]
    exact ⟨s', by rw [if_pos ⟨hregistered, hs⟩, hs']⟩

/-- The first task of `secondEndsFirst` finds the coroutine suspended. -/
theorem counter_step_succeeds_second_first :
    ∃ s s' : State ℕ ℕ, (machine ℕ ℕ).run (start 2) (secondEndsFirst.take 9) = some s ∧
      step s (.resume 0) = some s' := by
  obtain ⟨s', hs'⟩ := counter_step_succeeds 2 (secondEndsFirst.take 9) _ rfl
    (@Pending.resume ℕ ℕ _ 0 (some (.error 7)) rfl)
  exact ⟨_, s', rfl, hs'⟩

end Coring.WhenAll
