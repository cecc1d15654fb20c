import Coring.Framework.Latch
import Coring.Framework.Machine

/-!
# Scopes that wait for what they have spawned

An `async_scope` starts coroutines that nobody awaits, and its `join()` continues when all of them
are through.  This file embeds `include/coring/async_scope.hpp` as a machine: a coroutine owns the
scope, spawns workers and joins; a worker may spawn further ones; and what a worker awaits may
complete on any thread, so the atomic accesses of all parties are interleaved in every order.

`m_count` starts with one, for the owner, and a worker adds one before its first suspension, while
the party that spawns it still holds the scope.  The owner gives its one up in `join()`, a worker
when its `scoped_lambda` runs, and the coroutine stored in `m_continuation` is resumed by the
worker that has found a one.

A scope is a latch with its owner and its workers as the parties (`latched`), and the properties
follow from that: the owner goes on once, with every worker through, and it does go on.
-/

namespace Coring.AsyncScope

/-- Where the coroutine is that owns the scope. -/
inductive OwnerPc
  | running
  /-- In `on_work_started()`, between the assertion and `fetch_add`; with the functor or without. -/
  | adding (functor : Bool)
  /-- In `join()`, behind `await_ready`. -/
  | joining
  /-- Behind the store to `m_continuation`. -/
  | subtracting
  | suspended
  /-- Behind `join()`. -/
  | joined
  deriving Repr, DecidableEq

/-- How the body of a spawned coroutine has come to its end. -/
inductive Exit
  | returned
  /-- What it awaits has thrown, -/
  | awaitThrew
  /-- or its functor has. -/
  | functorThrew
  deriving Repr, DecidableEq

/-- Where a spawned coroutine is. -/
inductive WorkerPc
  | running
  | adding (functor : Bool)
  /-- In the destructor of its `scoped_lambda`, before `fetch_sub`. -/
  | finishing (exit : Exit)
  /-- It has found a one and is to resume the continuation. -/
  | resuming (exit : Exit)
  | finished
  /-- In `unhandled_exception()`. -/
  | terminating (exit : Exit)
  deriving Repr, DecidableEq

structure Worker where
  pc : WorkerPc
  /-- It was spawned with a functor. -/
  functor : Bool
  deriving Repr, DecidableEq

structure State (ρ : Type) where
  /-- `m_count`. -/
  count : ℕ
  /-- `m_continuation` is the owner. -/
  continuation : Bool
  owner : OwnerPc
  workers : List Worker
  /-- `std::terminate()` has been called. -/
  terminated : Bool
  /-- The calls of functors, each with its worker and its argument. -/
  calls : List (ℕ × ρ)
  /-- How often the owner has been resumed by a worker. -/
  resumed : ℕ
  deriving Repr, DecidableEq

variable {ρ : Type}

/-- `async_scope()`. -/
def start : State ρ := ⟨1, false, .running, [], false, [], 0⟩

namespace State

def setWorker (s : State ρ) (i : ℕ) (w : Worker) (pc : WorkerPc) : State ρ :=
  { s with workers := s.workers.set i { w with pc := pc } }

/-- `fetch_add` of `on_work_started()`; the coroutine runs on to what it awaits. -/
def addWorker (s : State ρ) (functor : Bool) : State ρ :=
  { s with count := s.count + 1, workers := s.workers ++ [⟨.running, functor⟩] }

end State

inductive Action (ρ : Type)
  /-- The owner calls `spawn`, and the assertion is evaluated, -/
  | spawn (functor : Bool)
  /-- and the counter goes up. -/
  | add
  /-- `await_ready` of `join()`, -/
  | join
  /-- and the two steps of its `await_suspend`. -/
  | store
  | subtract
  /-- A worker calls `spawn`. -/
  | workerSpawn (i : ℕ) (functor : Bool)
  | workerAdd (i : ℕ)
  /-- What a worker awaits completes with a result, and its functor returns, -/
  | complete (i : ℕ) (r : ρ)
  /-- or the functor, called with the result, throws, -/
  | functorThrow (i : ℕ) (r : ρ)
  /-- or what it awaits throws. -/
  | throw (i : ℕ)
  /-- `fetch_sub` of `on_work_finished()`. -/
  | decrement (i : ℕ)
  /-- `m_continuation.resume()`. -/
  | resume (i : ℕ)
  | terminate (i : ℕ)
  deriving Repr, DecidableEq

/-- Where a worker goes from `on_work_finished()`. -/
def afterWork : Exit → WorkerPc
  | .returned => .finished
  | exit => .terminating exit

/-- `spawn` up to the assertion; no step if it fails. -/
def spawn (s : State ρ) (functor : Bool) : Option (State ρ) :=
  if s.count ≠ 0 then some { s with owner := .adding functor } else none

/-- `await_ready`. -/
def join (s : State ρ) : Option (State ρ) :=
  some { s with owner := if s.count = 0 then .joined else .joining }

/-- A step of a process that has not terminated. -/
def liveStep (s : State ρ) : Action ρ → Option (State ρ)
  | .spawn functor =>
      match s.owner with
      | .running | .joined => spawn s functor
      | _ => none
  | .add =>
      match s.owner with
      | .adding functor => some { s.addWorker functor with owner := .running }
      | _ => none
  | .join =>
      match s.owner with
      | .running | .joined => join s
      | _ => none
  | .store =>
      match s.owner with
      | .joining => some { s with continuation := true, owner := .subtracting }
      | _ => none
  | .subtract =>
      match s.owner with
      | .subtracting =>
          -- Below zero the counter would wrap.
          if s.count = 0 then none
          else some { s with
            count := s.count - 1, owner := if s.count > 1 then .suspended else .joined }
      | _ => none
  | .workerSpawn i functor =>
      match s.workers[i]? with
      | some ⟨.running, f⟩ =>
          if s.count ≠ 0 then some (s.setWorker i ⟨.running, f⟩ (.adding functor)) else none
      | _ => none
  | .workerAdd i =>
      match s.workers[i]? with
      | some ⟨.adding functor, f⟩ =>
          some ((s.setWorker i ⟨.adding functor, f⟩ .running).addWorker functor)
      | _ => none
  | .complete i r =>
      match s.workers[i]? with
      | some ⟨.running, f⟩ =>
          some { s.setWorker i ⟨.running, f⟩ (.finishing .returned) with
            calls := if f then s.calls ++ [(i, r)] else s.calls }
      | _ => none
  | .functorThrow i r =>
      match s.workers[i]? with
      | some ⟨.running, true⟩ =>
          some { s.setWorker i ⟨.running, true⟩ (.finishing .functorThrew) with
            calls := s.calls ++ [(i, r)] }
      | _ => none
  | .throw i =>
      match s.workers[i]? with
      | some ⟨.running, f⟩ => some (s.setWorker i ⟨.running, f⟩ (.finishing .awaitThrew))
      | _ => none
  | .decrement i =>
      match s.workers[i]? with
      | some ⟨.finishing exit, f⟩ =>
          if s.count = 0 then none
          else
            let pc := if s.count = 1 then .resuming exit else afterWork exit
            some { s.setWorker i ⟨.finishing exit, f⟩ pc with count := s.count - 1 }
      | _ => none
  | .resume i =>
      match s.workers[i]? with
      | some ⟨.resuming exit, f⟩ =>
          -- A null handle, and a coroutine that is not suspended, must not be resumed.
          if s.continuation ∧ s.owner = .suspended then
            some { s.setWorker i ⟨.resuming exit, f⟩ (afterWork exit) with
              owner := .joined, resumed := s.resumed + 1 }
          else none
      | _ => none
  | .terminate i =>
      match s.workers[i]? with
      | some ⟨.terminating _, _⟩ => some { s with terminated := true }
      | _ => none

def step (s : State ρ) (a : Action ρ) : Option (State ρ) :=
  if s.terminated then none else liveStep s a

def machine (ρ : Type) : Machine (State ρ) (Action ρ) := ⟨step⟩

/-! ## The scope as a latch -/

def OwnerPc.standing : OwnerPc → Standing
  | .running | .adding _ | .joining | .subtracting => .holds
  | .suspended => .out
  | .joined => .baton

def WorkerPc.standing : WorkerPc → Standing
  | .running | .adding _ | .finishing _ => .holds
  | .resuming _ => .baton
  | .finished | .terminating _ => .out

/-- The worker has given its one up. -/
def WorkerPc.Through (pc : WorkerPc) : Prop := pc = .finished ∨ ∃ exit, pc = .terminating exit

lemma through_iff (pc : WorkerPc) : pc.Through ↔ pc.standing = .out := by
  cases pc <;> simp [WorkerPc.Through, WorkerPc.standing]

@[simp] lemma standing_afterWork (exit : Exit) : (afterWork exit).standing = .out := by
  cases exit <;> rfl

def Worker.standing (w : Worker) : Standing := w.pc.standing

/-- The owner and the workers. -/
def State.parties (s : State ρ) : List Standing := s.owner.standing :: s.workers.map Worker.standing

/-- The owner is behind the store to `m_continuation`. -/
def OwnerPc.Stored : OwnerPc → Prop
  | .subtracting | .suspended | .joined => True
  | .running | .adding _ | .joining => False

/-- How often a worker should have called its functor. -/
def Worker.due (w : Worker) : ℕ :=
  match w.pc with
  | .running | .adding _ => 0
  | .finishing exit | .resuming exit | .terminating exit =>
      if w.functor ∧ exit ≠ .awaitThrew then 1 else 0
  | .finished => if w.functor then 1 else 0

/-- Each worker has called its functor as often as it should have. -/
def Counted (calls : List (ℕ × ρ)) (workers : List Worker) : Prop :=
  ∀ i, calls.countP (·.1 = i) = (workers[i]?.map Worker.due).getD 0

structure Inv (s : State ρ) : Prop where
  latched : Latched s.count s.parties
  stored : s.owner.Stored → s.continuation = true
  resumed : s.resumed = 0 ∨ s.owner = .joined ∧ s.resumed = 1
  counted : Counted s.calls s.workers

lemma inv_start : Inv (start : State ρ) where
  latched := Latched.replicate (Nat.succ_ne_zero 0)
  stored := by rintro ⟨⟩
  resumed := .inl rfl
  counted := by
    intro i
    rfl

/-! ## What a step of a party does to the latch -/

variable {s s' : State ρ} {i : ℕ} {w : Worker}

lemma parties_worker (hi : s.workers[i]? = some w) :
    s.parties[i + 1]? = some w.pc.standing := by
  rw [State.parties, List.getElem?_cons_succ, List.getElem?_map, hi]
  rfl

lemma parties_setWorker (s : State ρ) (i : ℕ) (w : Worker) (pc : WorkerPc) :
    (s.setWorker i w pc).parties = s.parties.set (i + 1) pc.standing := by
  simp only [State.parties, State.setWorker, List.map_set, List.set_cons_succ, Worker.standing]

lemma parties_setWorker_of_eq (hi : s.workers[i]? = some w) {pc : WorkerPc}
    (hpc : pc.standing = w.pc.standing) : (s.setWorker i w pc).parties = s.parties := by
  simp only [State.parties, State.setWorker]
  have hview : Worker.standing ⟨pc, w.functor⟩ = w.standing := hpc
  rw [map_set_of_eq Worker.standing hi hview]

lemma parties_addWorker (s : State ρ) (functor : Bool) :
    (s.addWorker functor).parties = s.parties ++ [.holds] := by
  simp only [State.parties, State.addWorker, List.map_append, List.cons_append]
  rfl

/-! ## What it does to the calls -/

lemma Counted.set {calls : List (ℕ × ρ)} {workers : List Worker} (h : Counted calls workers)
    (hi : workers[i]? = some w) {w' : Worker} (hdue : w'.due = w.due) :
    Counted calls (workers.set i w') := by
  intro j
  rw [h j, List.getElem?_set]
  split
  · next hij =>
    subst hij
    rw [hi, if_pos (List.getElem?_eq_some_iff.mp hi).1]
    exact hdue.symm
  · rfl

lemma Counted.call {calls : List (ℕ × ρ)} {workers : List Worker} (h : Counted calls workers)
    (hi : workers[i]? = some w) {w' : Worker} (hdue : w'.due = w.due + 1) (r : ρ) :
    Counted (calls ++ [(i, r)]) (workers.set i w') := by
  intro j
  rw [countP_concat, h j, List.getElem?_set]
  by_cases hij : i = j
  · subst hij
    rw [hi, if_pos rfl, if_pos (List.getElem?_eq_some_iff.mp hi).1, if_pos (by simp)]
    exact hdue.symm
  · rw [if_neg hij, if_neg (by simpa using hij)]
    rfl

lemma Counted.concat {calls : List (ℕ × ρ)} {workers : List Worker} (h : Counted calls workers)
    {w : Worker} (hdue : w.due = 0) : Counted calls (workers ++ [w]) := by
  intro j
  rw [h j, List.getElem?_append]
  split
  · rfl
  · next hj =>
    rw [List.getElem?_eq_none (by omega)]
    rcases Nat.eq_zero_or_pos (j - workers.length) with hzero | hpos
    · rw [hzero]
      exact hdue.symm
    · rw [List.getElem?_eq_none (by simpa using Nat.succ_le_of_lt hpos)]

/-! ## The steps -/

/-- A worker moves on without touching the scope. -/
lemma Inv.move (h : Inv s) (hi : s.workers[i]? = some w) {pc : WorkerPc}
    (hpc : pc.standing = w.pc.standing) (hdue : (Worker.mk pc w.functor).due = w.due) :
    Inv (s.setWorker i w pc) where
  latched := by
    rw [parties_setWorker_of_eq hi hpc]
    exact h.latched
  stored := h.stored
  resumed := h.resumed
  counted := h.counted.set hi hdue

/-- A new worker, while somebody holds the scope. -/
lemma Inv.addWorker (h : Inv s) (hcount : s.count ≠ 0) (functor : Bool) :
    Inv (s.addWorker functor) where
  latched := by
    rw [parties_addWorker]
    exact h.latched.arrive hcount
  stored := h.stored
  resumed := h.resumed
  counted := h.counted.concat rfl

/-- Whoever holds the scope finds the counter above zero. -/
lemma Inv.count_ne_zero_of_owner (h : Inv s) (howner : s.owner.standing = .holds) :
    s.count ≠ 0 := by
  have hmem : .holds ∈ s.parties := by
    rw [State.parties, howner]
    exact List.mem_cons_self ..
  exact h.latched.ne_zero_of_holds hmem

lemma Inv.count_ne_zero_of_worker (h : Inv s) (hi : s.workers[i]? = some w)
    (hw : w.pc.standing = .holds) : s.count ≠ 0 := by
  have hmem : .holds ∈ s.parties := hw ▸ List.mem_of_getElem? (parties_worker hi)
  exact h.latched.ne_zero_of_holds hmem

/-- The owner moves on without giving the scope up. -/
lemma Inv.ownerMove (h : Inv s) {pc : OwnerPc} (hpc : pc.standing = s.owner.standing)
    (hstored : pc.Stored → s.owner.Stored) (hjoined : s.owner = .joined → pc = .joined) :
    Inv { s with owner := pc } where
  latched := by
    have hparties : { s with owner := pc }.parties = s.parties := by
      simp only [State.parties, hpc]
    rw [hparties]
    exact h.latched
  stored := fun hpc => h.stored (hstored hpc)
  resumed := h.resumed.imp_right fun ⟨howner, hresumed⟩ => ⟨hjoined howner, hresumed⟩
  counted := h.counted

/-- The owner gives its one up. -/
lemma Inv.subtract (h : Inv s) (howner : s.owner = .subtracting) :
    Inv { s with
      count := s.count - 1, owner := if s.count > 1 then .suspended else .joined } where
  latched := by
    have hstanding : OwnerPc.standing (if s.count > 1 then .suspended else .joined)
        = if s.count = 1 then .baton else .out := by
      have hcount := h.count_ne_zero_of_owner (by rw [howner]; rfl)
      split
      · rw [if_neg (by omega)]
        rfl
      · rw [if_pos (by omega)]
        rfl
    have hheld : s.parties[0]? = some .holds := by
      rw [State.parties, howner]
      rfl
    simp only [State.parties, hstanding]
    simpa only [State.parties, List.set_cons_zero] using h.latched.release hheld
  stored := fun _ => h.stored (by rw [howner]; trivial)
  resumed := by
    rcases h.resumed with hzero | ⟨hjoined, -⟩
    · exact .inl hzero
    · rw [howner] at hjoined
      cases hjoined
  counted := h.counted

/-- A worker gives its one up. -/
lemma Inv.decrement (h : Inv s) {exit : Exit} {f : Bool}
    (hi : s.workers[i]? = some ⟨.finishing exit, f⟩) :
    Inv { s.setWorker i ⟨.finishing exit, f⟩
        (if s.count = 1 then .resuming exit else afterWork exit) with
      count := s.count - 1 } where
  latched := by
    have hstanding :
        WorkerPc.standing (if s.count = 1 then .resuming exit else afterWork exit)
        = if s.count = 1 then .baton else .out := by
      split
      · rfl
      · exact standing_afterWork exit
    have hrelease := h.latched.release (parties_worker hi)
    rw [← hstanding, ← parties_setWorker] at hrelease
    exact hrelease
  stored := h.stored
  resumed := h.resumed
  counted := by
    refine h.counted.set hi ?_
    split
    · rfl
    · cases exit <;> cases f <;> rfl

/-- The worker with the baton finds the owner suspended and its handle stored. -/
lemma Inv.owner_suspended (h : Inv s) {exit : Exit} {f : Bool}
    (hi : s.workers[i]? = some ⟨.resuming exit, f⟩) :
    s.owner = .suspended ∧ s.continuation = true := by
  have hmem : .baton ∈ s.workers.map Worker.standing :=
    List.mem_map.mpr ⟨_, List.mem_of_getElem? hi, rfl⟩
  have hout : s.owner.standing = .out := h.latched.waiting_out hmem
  have howner : s.owner = .suspended := by
    cases hpc : s.owner <;> rw [hpc] at hout <;> first | rfl | cases hout
  exact ⟨howner, h.stored (by rw [howner]; trivial)⟩

/-- It hands the baton over. -/
lemma Inv.resume (h : Inv s) {exit : Exit} {f : Bool}
    (hi : s.workers[i]? = some ⟨.resuming exit, f⟩) :
    Inv { s.setWorker i ⟨.resuming exit, f⟩ (afterWork exit) with
      owner := .joined, resumed := s.resumed + 1 } where
  latched := by
    obtain ⟨howner, -⟩ := h.owner_suspended hi
    have hwaits : (s.parties.set (i + 1) .out)[0]? = some .out := by
      rw [State.parties, howner]
      rfl
    have hgiven := h.latched.handOver (parties_worker hi) hwaits
    rw [← standing_afterWork exit, ← parties_setWorker] at hgiven
    exact hgiven
  stored := fun _ => (h.owner_suspended hi).2
  resumed := by
    rcases h.resumed with hzero | ⟨hjoined, -⟩
    · exact .inr ⟨rfl, by rw [hzero]⟩
    · rw [(h.owner_suspended hi).1] at hjoined
      cases hjoined
  counted := by
    refine h.counted.set hi ?_
    cases exit <;> cases f <;> rfl

/-- What a worker awaits has completed. -/
lemma Inv.complete (h : Inv s) {f : Bool} (hi : s.workers[i]? = some ⟨.running, f⟩) (r : ρ) :
    Inv { s.setWorker i ⟨.running, f⟩ (.finishing .returned) with
      calls := if f then s.calls ++ [(i, r)] else s.calls } := by
  have hparties : (s.setWorker i ⟨.running, f⟩ (.finishing .returned)).parties = s.parties :=
    parties_setWorker_of_eq hi rfl
  have hlatched : Latched s.count (s.setWorker i ⟨.running, f⟩ (.finishing .returned)).parties := by
    rw [hparties]
    exact h.latched
  refine ⟨hlatched, h.stored, h.resumed, ?_⟩
  cases f with
  | false => exact h.counted.set hi rfl
  | true => exact h.counted.call hi rfl r

/-- The functor has thrown. -/
lemma Inv.functorThrow (h : Inv s) (hi : s.workers[i]? = some ⟨.running, true⟩) (r : ρ) :
    Inv { s.setWorker i ⟨.running, true⟩ (.finishing .functorThrew) with
      calls := s.calls ++ [(i, r)] } := by
  have hparties : (s.setWorker i ⟨.running, true⟩ (.finishing .functorThrew)).parties
      = s.parties := parties_setWorker_of_eq hi rfl
  have hlatched : Latched s.count
      (s.setWorker i ⟨.running, true⟩ (.finishing .functorThrew)).parties := by
    rw [hparties]
    exact h.latched
  exact ⟨hlatched, h.stored, h.resumed, h.counted.call hi rfl r⟩

lemma liveStep_inv {a : Action ρ} (h : Inv s) (hs : liveStep s a = some s') : Inv s' := by
  cases a with
  | spawn functor =>
    -- The owner is running, or behind a join; there the assertion fails.
    simp only [liveStep, spawn] at hs
    split at hs
    · next howner =>
      rw [if_pos (h.count_ne_zero_of_owner (by rw [howner]; rfl)), Option.some_inj] at hs
      rw [← hs]
      exact h.ownerMove (by rw [howner]; rfl) (by rintro ⟨⟩) (by rw [howner]; rintro ⟨⟩)
    · next howner =>
      have hmem : .baton ∈ s.parties := by
        rw [State.parties, howner]
        exact List.mem_cons_self ..
      rw [h.latched.count_eq_zero hmem] at hs
      cases hs
    · cases hs
  | add =>
    simp only [liveStep] at hs
    split at hs
    · next functor howner =>
      have hcount := h.count_ne_zero_of_owner (by rw [howner]; rfl)
      rw [← Option.some_inj.mp hs]
      exact (h.addWorker hcount functor).ownerMove (by rw [State.addWorker, howner]; rfl)
        (by rintro ⟨⟩) (by rw [State.addWorker, howner]; rintro ⟨⟩)
    · cases hs
  | join =>
    simp only [liveStep, join] at hs
    split at hs
    · next howner =>
      rw [if_neg (h.count_ne_zero_of_owner (by rw [howner]; rfl)), Option.some_inj] at hs
      rw [← hs]
      exact h.ownerMove (by rw [howner]; rfl) (by rintro ⟨⟩) (by rw [howner]; rintro ⟨⟩)
    · next howner =>
      have hmem : .baton ∈ s.parties := by
        rw [State.parties, howner]
        exact List.mem_cons_self ..
      rw [if_pos (h.latched.count_eq_zero hmem), Option.some_inj] at hs
      rw [← hs]
      exact h.ownerMove (by rw [howner]) (fun _ => by rw [howner]; trivial) fun _ => rfl
    · cases hs
  | store =>
    simp only [liveStep] at hs
    split at hs
    · next howner =>
      rw [← Option.some_inj.mp hs]
      have hmoved : Inv { s with owner := .joining } := by
        rw [← howner]
        exact h
      refine ⟨hmoved.latched, fun _ => rfl, ?_, h.counted⟩
      rcases h.resumed with hzero | ⟨hjoined, -⟩
      · exact .inl hzero
      · rw [howner] at hjoined
        cases hjoined
    · cases hs
  | subtract =>
    simp only [liveStep] at hs
    split at hs
    · next howner =>
      rw [if_neg (h.count_ne_zero_of_owner (by rw [howner]; rfl)), Option.some_inj] at hs
      rw [← hs]
      exact h.subtract howner
    · cases hs
  | workerSpawn i functor =>
    simp only [liveStep] at hs
    split at hs
    · next f hi =>
      split at hs
      · rw [← Option.some_inj.mp hs]
        exact h.move hi rfl rfl
      · cases hs
    · cases hs
  | workerAdd i =>
    simp only [liveStep] at hs
    split at hs
    · next functor f hi =>
      rw [← Option.some_inj.mp hs]
      have hmoved : Inv (s.setWorker i ⟨.adding functor, f⟩ .running) := h.move hi rfl rfl
      exact hmoved.addWorker (h.count_ne_zero_of_worker hi rfl) functor
    · cases hs
  | complete i r =>
    simp only [liveStep] at hs
    split at hs
    · next f hi =>
      rw [← Option.some_inj.mp hs]
      exact h.complete hi r
    · cases hs
  | functorThrow i r =>
    simp only [liveStep] at hs
    split at hs
    · next hi =>
      rw [← Option.some_inj.mp hs]
      exact h.functorThrow hi r
    · cases hs
  | throw i =>
    simp only [liveStep] at hs
    split at hs
    · next f hi =>
      rw [← Option.some_inj.mp hs]
      exact h.move hi rfl (by simp [Worker.due])
    · cases hs
  | decrement i =>
    simp only [liveStep] at hs
    split at hs
    · next exit f hi =>
      rw [if_neg (h.count_ne_zero_of_worker hi rfl), Option.some_inj] at hs
      rw [← hs]
      exact h.decrement hi
    · cases hs
  | resume i =>
    simp only [liveStep] at hs
    split at hs
    · next exit f hi =>
      split at hs
      · rw [← Option.some_inj.mp hs]
        exact h.resume hi
      · cases hs
    · cases hs
  | terminate i =>
    simp only [liveStep] at hs
    split at hs
    · rw [← Option.some_inj.mp hs]
      exact ⟨h.latched, h.stored, h.resumed, h.counted⟩
    · cases hs

lemma step_inv {a : Action ρ} (h : Inv s) (hs : step s a = some s') : Inv s' := by
  simp only [step] at hs
  split at hs
  · cases hs
  · exact liveStep_inv h hs

/-! ## Runs -/

lemma Inv.of_run {as : List (Action ρ)} (hrun : (machine ρ).run start as = some s) : Inv s :=
  (machine ρ).run_invariant (fun _ _ _ => step_inv) inv_start hrun

/-- Behind its join the owner has the baton. -/
lemma Inv.through_of_joined (h : Inv s) (howner : s.owner = .joined) :
    ∀ w ∈ s.workers, w.pc.Through := by
  have hlatched := h.latched
  rw [State.parties, howner] at hlatched
  exact fun w hw => (through_iff w.pc).mpr
    (hlatched.baton_unique _ (List.mem_map.mpr ⟨w, hw, rfl⟩))

lemma Inv.exists_of_suspended (h : Inv s) (howner : s.owner = .suspended) :
    ∃ w ∈ s.workers, ¬ w.pc.Through := by
  have hlatched := h.latched
  rw [State.parties, howner] at hlatched
  obtain ⟨p, hp, hout⟩ := hlatched.exists_not_out
  obtain ⟨w, hw, rfl⟩ := List.mem_map.mp hp
  exact ⟨w, hw, fun hthrough => hout ((through_iff w.pc).mp hthrough)⟩

lemma Inv.callsOf (h : Inv s) (hi : s.workers[i]? = some w) :
    s.calls.countP (·.1 = i) = w.due := by
  rw [h.counted i, hi]
  rfl

/-- **A join waits for all work, and for nothing else.**  Take any interleaving of the owner and
the workers, with spawns at any time by the owner before its join and by workers.  When the owner
is behind `join()` every worker is through, and each functor has been called once, also if it has
thrown, but not by a worker that got an exception in place of a result.  While the owner is
suspended some worker is not through yet.  And no worker resumes the owner a second time. -/
theorem joined_after_all_work (as : List (Action ρ)) (s : State ρ)
    (hrun : (machine ρ).run start as = some s) :
    (s.owner = .joined → ∀ i w, s.workers[i]? = some w → w.pc.Through ∧
      s.calls.countP (·.1 = i)
        = if w.functor ∧ w.pc ≠ .terminating .awaitThrew then 1 else 0) ∧
    (s.owner = .suspended → ∃ w ∈ s.workers, ¬ w.pc.Through) ∧
    s.resumed ≤ 1 := by
  have hinv := Inv.of_run hrun
  refine ⟨?_, hinv.exists_of_suspended, ?_⟩
  · intro howner i w hi
    have hthrough := hinv.through_of_joined howner w (List.mem_of_getElem? hi)
    refine ⟨hthrough, ?_⟩
    rw [hinv.callsOf hi]
    obtain ⟨pc, f⟩ := w
    rcases hthrough with rfl | ⟨exit, rfl⟩ <;> simp [Worker.due]
  · rcases hinv.resumed with hzero | ⟨-, hone⟩ <;> omega

/-- A worker spawns another one, with a functor; the owner joins, and the second worker, which is
the last, resumes it. -/
def nestedSpawn : List (Action ℕ) :=
  [.spawn false, .add, .workerSpawn 0 true, .join, .workerAdd 0, .store, .complete 0 0,
    .decrement 0, .subtract, .complete 1 7, .decrement 1, .resume 1]

/-- The same, but the functor throws; the owner goes on before the process is terminated. -/
def nestedThrow : List (Action ℕ) :=
  [.spawn false, .add, .workerSpawn 0 true, .join, .workerAdd 0, .store, .complete 0 0,
    .decrement 0, .subtract, .functorThrow 1 7, .decrement 1, .resume 1]

theorem joined_after_all_work_nested :
    (∃ s : State ℕ, (machine ℕ).run start nestedSpawn = some s ∧ s.owner = .joined ∧
      s.calls.countP (·.1 = 1) = 1) ∧
    ∃ s : State ℕ, (machine ℕ).run start nestedThrow = some s ∧ s.owner = .joined ∧
      s.calls.countP (·.1 = 1) = 1 := by
  obtain ⟨hjoined, -, -⟩ := joined_after_all_work nestedSpawn _ rfl
  obtain ⟨hjoined', -, -⟩ := joined_after_all_work nestedThrow _ rfl
  exact ⟨⟨_, rfl, rfl, (hjoined rfl 1 ⟨.finished, true⟩ rfl).2⟩,
    _, rfl, rfl, (hjoined' rfl 1 ⟨.terminating .functorThrew, true⟩ rfl).2⟩

/-- What a party is about to do to the scope. -/
inductive Pending : State ρ → Action ρ → Prop
  | spawn {s : State ρ} (howner : s.owner = .running) (functor : Bool) : Pending s (.spawn functor)
  | subtract {s : State ρ} (howner : s.owner = .subtracting) : Pending s .subtract
  | workerSpawn {s : State ρ} {i : ℕ} {f : Bool} (hi : s.workers[i]? = some ⟨.running, f⟩)
      (functor : Bool) : Pending s (.workerSpawn i functor)
  | decrement {s : State ρ} {i : ℕ} {exit : Exit} {f : Bool}
      (hi : s.workers[i]? = some ⟨.finishing exit, f⟩) : Pending s (.decrement i)
  | resume {s : State ρ} {i : ℕ} {exit : Exit} {f : Bool}
      (hi : s.workers[i]? = some ⟨.resuming exit, f⟩) : Pending s (.resume i)

/-- **The scope is never misused from within.**  While the process lives, whatever a party is about
to do goes through: the assertion of `on_work_started()` holds for the owner before its join and
for every worker, no decrement takes the counter below zero, and a worker that resumes the
continuation finds it stored and suspended.  The destructor's assertion holds behind the join,
and a spawn there fails its own. -/
theorem pending_step_succeeds (as : List (Action ρ)) (s : State ρ)
    (hrun : (machine ρ).run start as = some s) (hlive : s.terminated = false) :
    (∀ a, Pending s a → ∃ s', step s a = some s') ∧
    (s.owner = .joined → s.continuation = true ∧ ∀ functor, step s (.spawn functor) = none) := by
  have hinv := Inv.of_run hrun
  have hstep : ∀ a, step s a = liveStep s a := fun a => by
    rw [step, hlive]
    rfl
  constructor
  · intro a ha
    rw [hstep]
    refine Option.isSome_iff_exists.mp ?_
    cases ha with
    | spawn howner functor =>
      have hcount := hinv.count_ne_zero_of_owner (by rw [howner]; rfl)
      simp only [liveStep, spawn, howner, if_pos hcount, Option.isSome_some]
    | subtract howner =>
      have hcount := hinv.count_ne_zero_of_owner (by rw [howner]; rfl)
      simp only [liveStep, howner, if_neg hcount, Option.isSome_some]
    | workerSpawn hi functor =>
      have hcount := hinv.count_ne_zero_of_worker hi rfl
      simp only [liveStep, hi, if_pos hcount, Option.isSome_some]
    | decrement hi =>
      have hcount := hinv.count_ne_zero_of_worker hi rfl
      simp only [liveStep, hi, if_neg hcount, Option.isSome_some]
    | resume hi =>
      obtain ⟨howner, hstored⟩ := hinv.owner_suspended hi
      simp only [liveStep, hi, howner, hstored, and_self, if_true, Option.isSome_some]
  · intro howner
    refine ⟨hinv.stored (by rw [howner]; trivial), fun functor => ?_⟩
    have hmem : .baton ∈ s.parties := by
      rw [State.parties, howner]
      exact List.mem_cons_self ..
    have hzero := hinv.latched.count_eq_zero hmem
    rw [hstep]
    simp only [liveStep, spawn, howner, hzero, ne_eq, not_true_eq_false, if_false]

/-- The last worker of `nestedSpawn` finds the owner suspended. -/
theorem pending_step_succeeds_nested :
    ∃ s s' : State ℕ, (machine ℕ).run start (nestedSpawn.take 11) = some s ∧
      step s (.resume 1) = some s' := by
  obtain ⟨hpending, -⟩ := pending_step_succeeds (nestedSpawn.take 11) _ rfl rfl
  obtain ⟨s', hs'⟩ := hpending (.resume 1) (@Pending.resume ℕ _ 1 .returned true rfl)
  exact ⟨_, s', rfl, hs'⟩

end Coring.AsyncScope
