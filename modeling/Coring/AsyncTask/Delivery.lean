import Coring.AsyncTask.Invariant

/-!
# Every result is delivered once

A coroutine suspended on a task is known to the promise of the task until the task ends.  That is
all the final suspend point needs to resume the right coroutine, at the right place, with a result
to read.  `Delivers` says so of a state, in the terms of a program that awaits tasks.

It does not hold of all programs: a body that ends destroys its tasks, and with one that has not
ended goes whoever waits in its frame (`not_delivers_abandon`).  It holds as long as each body that
ends has seen the end of the tasks it has started (`Tidy`).
-/

namespace Coring.AsyncTask

variable {α ε : Type}

open State

/-- Coroutines wait only for younger ones, so without an I/O operation to wait for none waits. -/
lemma State.Inv.all_done {s : State α ε} (h : Inv s) (hstack : s.stack = [])
    (hio : ∀ t k, (s.frame t).pc ≠ .awaitingIo k) {t : ℕ} (ht : t < s.called) :
    (s.frame t).isDone = true := by
  induction hn : s.called - t using Nat.strongRecOn generalizing t with
  | ind n ih =>
    cases hpc : (s.frame t).pc with
    | running body =>
      have hmem := (h.onStack t).mpr ⟨body, hpc⟩
      rw [hstack] at hmem
      cases hmem
    | awaitingIo k => exact absurd hpc (hio t k)
    | awaitingTask c k =>
      obtain ⟨hc, -, hd⟩ := h.awaiting t c k hpc
      obtain ⟨hlt, hcalled⟩ := h.younger t c hc
      rw [ih (s.called - c) (by omega) hcalled rfl] at hd
      cases hd
    | done => exact Frame.isDone_iff.mpr hpc

/-- What awaiting a task does. -/
lemma State.Inv.exec_awaitTask {s : State α ε} (h : Inv s) {t : ℕ} {rest : List ℕ} {i : ℕ}
    {k : Result α ε → Body α ε} {c : ℕ} (hstack : s.stack = t :: rest)
    (hpc : (s.frame t).pc = .running (.awaitTask i k)) (hi : (s.frame t).tasks[i]? = some c) :
    ∃ s', s.exec = some s' ∧
      ((s.frame c).isDone = true → ∃ r, (s.frame c).result = some r ∧
        (s'.frame t).pc = .running (k r) ∧ s'.stack = s.stack ∧
        s'.suspensions = s.suspensions ∧ s'.obtained = s.obtained ++ [(t, c, r)]) ∧
      ((s.frame c).isDone = false → (s'.frame t).pc = .awaitingTask c k ∧ s'.stack = rest ∧
        s'.suspensions = s.suspensions ++ [(t, c)]) := by
  obtain ⟨hlt, hcalled⟩ := h.younger t c (List.mem_of_getElem? hi)
  simp only [exec, hstack, hpc, hi]
  cases hd : (s.frame c).isDone with
  | true =>
    obtain ⟨r, hr⟩ := Option.ne_none_iff_exists'.mp ((h.result c hcalled).mp hd)
    refine ⟨{ s.setPc t (.running (k r)) with obtained := s.obtained ++ [(t, c, r)] }, ?_,
      fun _ => ⟨r, hr, ?_, hstack, rfl, rfl⟩, fun hf => absurd hf (by decide)⟩
    · simp [State.awaitTask, hd, awaitResume, hr]
    · simp
  | false =>
    refine ⟨_, awaitTask_eq (Nat.ne_of_gt hlt) hd, fun hf => absurd hf (by decide),
      fun _ => ⟨?_, rfl, rfl⟩⟩
    simp [State.suspend, Nat.ne_of_lt hlt]

/-- What the end of a body does. -/
lemma State.Inv.exec_ends {s : State α ε} (h : Inv s) (hkept : Kept s) {t : ℕ} {rest : List ℕ}
    {body : Body α ε} {r : Result α ε} (hstack : s.stack = t :: rest)
    (hpc : (s.frame t).pc = .running body)
    (hr : body.ends = some r) :
    ∃ s', s.exec = some s' ∧ (s'.frame t).isDone = true ∧ (s'.frame t).result = some r ∧
      (∀ w, (w, t) ∈ s.suspensions → ∃ k, (s.frame w).pc = .awaitingTask t k ∧
        (s'.frame w).pc = .running (k r) ∧ s'.stack = w :: rest ∧
        s'.resumptions = s.resumptions ++ [(w, t)]) ∧
      ((∀ w, (w, t) ∉ s.suspensions) → s'.stack = rest ∧ s'.resumptions = s.resumptions ∧
        ∀ u, u ≠ t → s'.frame u = s.frame u) := by
  have hd : (s.frame t).isDone = false := Frame.isDone_of_running hpc
  have hexec : s.exec = s.finish t r rest := by
    cases body with
    | coReturn v =>
      rw [← Option.some_inj.mp hr]
      simp only [exec, hstack, hpc]
    | throw e =>
      rw [← Option.some_inj.mp hr]
      simp only [exec, hstack, hpc]
    | _ => cases hr
  rw [hexec]
  rcases finish_spec h hkept r hstack hpc with ⟨hwho, heq, -⟩ | ⟨w, k, hwho, hk, heq, -⟩
  · refine ⟨_, heq, ?_, ?_, fun w hw => absurd hw (h.not_suspended hwho hd w),
      fun _ => ⟨rfl, rfl, fun u hu => Function.update_of_ne hu ..⟩⟩
    · simp [State.ended, Frame.isDone]
    · simp [State.ended]
  · have hne : w ≠ t := by
      rintro rfl
      rw [hpc] at hk
      cases hk
    have hmem := h.continuation t w hwho
    refine ⟨_, heq, ?_, ?_, fun u hu => ?_, fun hno => absurd hmem (hno w)⟩
    · simp [State.handedOver, setPc_frame_of_ne _ hne.symm, State.ended, Frame.isDone]
    · simp [State.handedOver, setPc_frame_of_ne _ hne.symm, State.ended]
    · obtain ⟨k', hk'⟩ := (h.suspended u t hu).2 hd
      obtain rfl : w = u := Option.some_inj.mp (hwho.symm.trans (h.awaiting u t k' hk').2.1)
      exact ⟨k, hk, by simp [State.handedOver], rfl, rfl⟩

/-- What the await protocol promises in a state. -/
structure Delivers (s : State α ε) : Prop where
  /-- A coroutine is suspended on a task at most once, and resumed by it at most once: -/
  once : s.suspensions.Nodup ∧ s.resumptions.Nodup
  /-- when the task reaches its final suspend point, -/
  resumed : ∀ t c, (t, c) ∈ s.resumptions ↔
    (t, c) ∈ s.suspensions ∧ (s.frame c).isDone = true
  /-- and not before. -/
  suspended : ∀ t c, (t, c) ∈ s.suspensions → (s.frame c).isDone = false →
    ∃ k, (s.frame t).pc = .awaitingTask c k
  /-- With its resumption it obtains a result, -/
  read : ∀ t c, (t, c) ∈ s.resumptions → ∃ r, (t, c, r) ∈ s.obtained
  /-- and every result obtained from a task is the one the task has produced. -/
  obtained : ∀ t c r, (t, c, r) ∈ s.obtained → (s.frame c).result = some r
  /-- A task that has ended is read without suspending; on another one the coroutine is
  suspended. -/
  await : ∀ t rest i k c, s.stack = t :: rest →
    (s.frame t).pc = .running (.awaitTask i k) → (s.frame t).tasks[i]? = some c →
    ∃ s', s.exec = some s' ∧
      ((s.frame c).isDone = true → ∃ r, (s.frame c).result = some r ∧
        (s'.frame t).pc = .running (k r) ∧ s'.stack = s.stack ∧
        s'.suspensions = s.suspensions ∧ s'.obtained = s.obtained ++ [(t, c, r)]) ∧
      ((s.frame c).isDone = false → (s'.frame t).pc = .awaitingTask c k ∧ s'.stack = rest ∧
        s'.suspensions = s.suspensions ++ [(t, c)])
  /-- A body that ends resumes the coroutine that is suspended on its task, with what it has
  produced; without one it resumes nobody. -/
  ends : ∀ t rest body r, s.stack = t :: rest → (s.frame t).pc = .running body →
    body.ends = some r →
    ∃ s', s.exec = some s' ∧ (s'.frame t).isDone = true ∧ (s'.frame t).result = some r ∧
      (∀ w, (w, t) ∈ s.suspensions → ∃ k, (s.frame w).pc = .awaitingTask t k ∧
        (s'.frame w).pc = .running (k r) ∧ s'.stack = w :: rest ∧
        s'.resumptions = s.resumptions ++ [(w, t)]) ∧
      ((∀ w, (w, t) ∉ s.suspensions) → s'.stack = rest ∧ s'.resumptions = s.resumptions ∧
        ∀ u, u ≠ t → s'.frame u = s.frame u)
  /-- The running coroutine can go on, -/
  progress : s.stack ≠ [] → ∃ s', s.exec = some s'
  /-- without one the completion of an I/O operation resumes the coroutine that awaits it, -/
  completion : s.stack = [] → ∀ t k res, (s.frame t).pc = .awaitingIo k →
    ∃ s', step s (.complete t res) = some s' ∧ (s'.frame t).pc = .running (k res) ∧
      s'.stack = [t]
  /-- and when none is running and no I/O operation is awaited, all have ended. -/
  complete : s.stack = [] → (∀ t k, (s.frame t).pc ≠ .awaitingIo k) →
    ∀ t < s.called, (s.frame t).isDone = true

/-- **Every result is delivered once**: in every state that a program of tasks can reach, with its
I/O operations completing in any order, when each body that ends has seen the end of its tasks. -/
theorem results_delivered_once (as : List (Action α ε)) (s : State α ε)
    (htidy : machine.Each (fun s a => Tidy s a = true) start as)
    (hrun : machine.run start as = some s) : Delivers s := by
  obtain ⟨hinv, hkept⟩ : Inv s ∧ Kept s :=
    machine.run_invariant_of_each (P := fun s => Inv s ∧ Kept s)
      (fun _ _ _ h htidy hs => ⟨step_inv h.1 h.2 hs, step_kept h.1 h.2 htidy hs⟩)
      ⟨inv_start, kept_start⟩ htidy hrun
  exact {
    once := hinv.once
    resumed := hinv.resumed
    suspended := fun t c hmem => (hinv.suspended t c hmem).2
    read := hinv.read
    obtained := hinv.obtained
    await := fun t rest i k c => hinv.exec_awaitTask
    ends := fun t rest body r => hinv.exec_ends hkept
    progress := by
      intro hne
      obtain ⟨t, rest, hstack⟩ := List.exists_cons_of_ne_nil hne
      obtain ⟨s', hs', -⟩ := exec_spec hinv hkept hstack
      exact ⟨s', hs'⟩
    completion := by
      intro hstack t k res hk
      have ht : s.destroyed t = false := hkept.not_destroyed (by rw [Frame.isDone, hk])
      refine ⟨{ s.setPc t (.running (k res)) with stack := [t] }, ?_, by simp, rfl⟩
      simp only [step, hstack, ht, and_self, if_true, hk]
    complete := fun hstack hio t => hinv.all_done hstack hio }

/-- A coroutine that starts a task for an I/O operation and awaits it. -/
def increment : Body ℤ Unit :=
  .start (.awaitIo .coReturn) (.awaitTask 0 fun
    | .ok v => .coReturn (v + 1)
    | .error e => .throw e)

/-- It is called and suspended on the task; the operation completes, and the two of them end. -/
def incrementRun : List (Action ℤ Unit) :=
  [.call increment, .exec, .exec, .exec, .complete 1 41, .exec, .exec]

theorem results_delivered_once_increment :
    ∃ s, machine.run start incrementRun = some s ∧ s.resumptions = [(0, 1)] ∧
      s.obtained = [(0, 1, .ok 41)] ∧ (s.frame 0).result = some (.ok 42) ∧ Delivers s := by
  have hrun : (machine.run start incrementRun).map
      (fun s => (s.resumptions, s.obtained, (s.frame 0).result))
      = some ([(0, 1)], [(0, 1, .ok 41)], some (.ok 42)) := rfl
  have htidy : machine.Each (fun s a => Tidy s a = true) (start : State ℤ Unit) incrementRun := by
    decide
  obtain ⟨s, hs, heq⟩ := Option.map_eq_some_iff.mp hrun
  simp only [Prod.mk.injEq] at heq
  exact ⟨s, hs, heq.1, heq.2.1, heq.2.2, results_delivered_once _ s htidy hs⟩

/-- A coroutine that starts such a coroutine and ends. -/
def abandon : Body ℤ Unit := .start increment (.coReturn 0)

/-- It is called, the coroutine it starts is suspended on the task, and it ends. -/
def abandonRun : List (Action ℤ Unit) :=
  [.call abandon, .exec, .exec, .exec, .exec, .exec]

/-- With its task the one that is suspended is destroyed, and with that the one it is suspended on:
no step resumes either of them. -/
theorem not_delivers_abandon :
    ∃ s, machine.run start abandonRun = some s ∧ s.suspensions = [(1, 2)] ∧
      s.resumptions = [] ∧ ¬ Delivers s ∧ s.exec = none ∧
      ∀ t < s.called, ∀ res, step s (.complete t res) = none := by
  have hrun : (machine.run start abandonRun).map
      (fun s => (s.suspensions, s.resumptions, s.stack, s.called,
        (s.frame 0).isDone, (s.frame 1).isDone, (s.frame 2).pc, s.destroyed 1, s.destroyed 2))
      = some ([(1, 2)], [], [], 3, true, false, .awaitingIo .coReturn, true, true) := rfl
  obtain ⟨s, hs, heq⟩ := Option.map_eq_some_iff.mp hrun
  simp only [Prod.mk.injEq] at heq
  obtain ⟨hsusp, hres, hstack, hcalled, hdone₀, -, hpc₂, hdestroyed₁, hdestroyed₂⟩ := heq
  have hnone : ∀ t < s.called, ∀ res, step s (.complete t res) = none := fun t ht res => by
    rw [hcalled] at ht
    obtain rfl | rfl | rfl : t = 0 ∨ t = 1 ∨ t = 2 := by omega
    · simp only [step, hstack, Frame.isDone_iff.mp hdone₀, ite_self]
    · simp only [step, hdestroyed₁, Bool.true_eq_false, and_false, if_false]
    · simp only [step, hdestroyed₂, Bool.true_eq_false, and_false, if_false]
  refine ⟨s, hs, hsusp, hres, fun hdelivers => ?_, by simp only [exec, hstack], hnone⟩
  obtain ⟨s', hs', -⟩ := hdelivers.completion hstack 2 .coReturn 0 hpc₂
  cases (hnone 2 (by rw [hcalled]; decide) 0).symm.trans hs'

end Coring.AsyncTask
