import Coring.Framework.Machine
import Coring.IoContext.TimerLoop

/-!
# Auto-reset events between threads

A `single_consumer_async_auto_reset_event` hands signals to one coroutine: `set()` releases the
coroutine that waits, or leaves a signal that its next `co_await` takes.  The event loop uses it on
one thread; its exchanges make it an event for several, and this file embeds
`include/coring/single_consumer_async_auto_reset_event.hpp` with every access to `m_state` as a
step, for any number of concurrent calls of `set()`.

`set()` is two exchanges when it finds a coroutine: one that takes the coroutine out of `m_state`
and one that clears the signal it has left there itself.  A second `set()` between the two is
absorbed by the first.  What the event promises all the same is that the coroutine goes on after
it (`signal_is_taken`): a signal is taken by an exchange that comes later, and each such exchange
lets the coroutine go on once.
-/

namespace Coring.AutoReset

/-- `m_state`: null, the event itself, or where the handle of a `co_await` is. -/
inductive Word
  | null
  | self
  | handle (n : ℕ)
  deriving Repr, DecidableEq

/-- Where the consumer is. -/
inductive ConsumerPc
  | running
  /-- Its `compare_exchange_strong` has failed. -/
  | clearing
  | suspended
  deriving Repr, DecidableEq

/-- A call of `set()` that has found a handle. -/
inductive Setter
  /-- Before its second exchange. -/
  | clearing (n : ℕ)
  /-- Before `handle.resume()`. -/
  | resuming (n : ℕ)
  deriving Repr, DecidableEq

structure State where
  word : Word
  consumer : ConsumerPc
  /-- The number of the consumer's latest `co_await`. -/
  awaits : ℕ
  setters : List Setter
  /-- A signal has been given and not been taken. -/
  signalled : Bool
  /-- How many signals have been given, -/
  signals : ℕ
  /-- and how often the consumer has gone on. -/
  wakes : ℕ
  deriving Repr, DecidableEq

/-- `single_consumer_async_auto_reset_event(initiallySet)`. -/
def start (initiallySet : Bool) : State :=
  ⟨if initiallySet then .self else .null, .running, 0, [], initiallySet, initiallySet.toNat, 0⟩

inductive Action
  /-- `co_await` up to its `compare_exchange_strong`, -/
  | await
  /-- and its exchange if that has failed. -/
  | clear
  /-- The first exchange of a `set()`, -/
  | set
  /-- its second one, -/
  | clearHandle (i : ℕ)
  /-- and the resumption. -/
  | resume (i : ℕ)
  deriving Repr, DecidableEq

def step (s : State) : Action → Option State
  | .await =>
      match s.consumer, s.word with
      | .running, .null =>
          some { s with
            word := .handle (s.awaits + 1), consumer := .suspended, awaits := s.awaits + 1 }
      | .running, .self => some { s with consumer := .clearing, awaits := s.awaits + 1 }
      -- The assertion behind the exchange fails.
      | .running, .handle _ => none
      | _, _ => none
  | .clear =>
      match s.consumer with
      | .clearing =>
          some { s with
            word := .null, consumer := .running, signalled := false, wakes := s.wakes + 1 }
      | _ => none
  | .set =>
      some { s with
        word := .self
        setters := match s.word with
          | .handle n => s.setters ++ [.clearing n]
          | .null | .self => s.setters
        signalled := true
        signals := s.signals + 1 }
  | .clearHandle i =>
      match s.setters[i]? with
      | some (.clearing n) =>
          -- The handle is read out of the frame of the coroutine, which must be suspended there.
          if s.consumer = .suspended ∧ n = s.awaits then
            some { s with
              word := .null, setters := s.setters.set i (.resuming n), signalled := false }
          else none
      | _ => none
  | .resume i =>
      match s.setters[i]? with
      | some (.resuming n) =>
          if s.consumer = .suspended ∧ n = s.awaits then
            some { s with
              consumer := .running, setters := s.setters.eraseIdx i, wakes := s.wakes + 1 }
          else none
      | _ => none

def machine : Machine State Action := ⟨step⟩

/-- What `m_state` and the calls of `set()` look like while the consumer is where it is. -/
inductive Shape : State → Prop
  | running {s : State} (hs : s.consumer = .running) (hset : s.setters = [])
      (hword : ∀ n, s.word ≠ .handle n) : Shape s
  | clearing {s : State} (hs : s.consumer = .clearing) (hset : s.setters = [])
      (hword : s.word = .self) : Shape s
  | waiting {s : State} (hs : s.consumer = .suspended) (hset : s.setters = [])
      (hword : s.word = .handle s.awaits) : Shape s
  | taken {s : State} (hs : s.consumer = .suspended) (hset : s.setters = [.clearing s.awaits])
      (hword : s.word = .self) : Shape s
  | released {s : State} (hs : s.consumer = .suspended)
      (hset : s.setters = [.resuming s.awaits]) (hword : ∀ n, s.word ≠ .handle n) : Shape s

/-- The signals on their way: one in `m_state`, and one with a call that is to resume. -/
def State.pending (s : State) : ℕ :=
  (if s.word = .self then 1 else 0) + s.setters.countP (· matches .resuming _)

structure Inv (s : State) : Prop where
  shape : Shape s
  signalled : s.signalled = true ↔ s.word = .self
  conserved : s.wakes + s.pending ≤ s.signals

lemma inv_start (initiallySet : Bool) : Inv (start initiallySet) := by
  cases initiallySet
  · exact ⟨.running rfl rfl (by rintro n ⟨⟩), by decide, by decide⟩
  · exact ⟨.running rfl rfl (by rintro n ⟨⟩), by decide, by decide⟩

variable {s s' : State}

lemma Inv.set_step (h : Inv s) (hstep : step s .set = some s') : Inv s' := by
  rw [← Option.some_inj.mp hstep]
  have hconserved := h.conserved
  cases h.shape with
  | running hs hset hword =>
    cases hw : s.word with
    | handle n => exact absurd hw (hword n)
    | null =>
      refine ⟨.running hs hset (by rintro n ⟨⟩), by simp, ?_⟩
      simp [State.pending, hset, hw] at hconserved ⊢
      omega
    | self =>
      refine ⟨.running hs hset (by rintro n ⟨⟩), by simp, ?_⟩
      simp [State.pending, hset, hw] at hconserved ⊢
      omega
  | clearing hs hset hword =>
    simp only [hword]
    refine ⟨.clearing hs hset rfl, by simp, ?_⟩
    simp [State.pending, hset, hword] at hconserved ⊢
    omega
  | waiting hs hset hword =>
    simp only [hword]
    refine ⟨.taken hs (by rw [hset]; rfl) rfl, by simp, ?_⟩
    simp [State.pending, hset, hword] at hconserved ⊢
    omega
  | taken hs hset hword =>
    simp only [hword]
    refine ⟨.taken hs hset rfl, by simp, ?_⟩
    simp [State.pending, hset, hword] at hconserved ⊢
    omega
  | released hs hset hword =>
    cases hw : s.word with
    | handle n => exact absurd hw (hword n)
    | null =>
      refine ⟨.released hs hset (by rintro n ⟨⟩), by simp, ?_⟩
      simp [State.pending, hset, hw] at hconserved ⊢
      omega
    | self =>
      refine ⟨.released hs hset (by rintro n ⟨⟩), by simp, ?_⟩
      simp [State.pending, hset, hw] at hconserved ⊢
      omega

lemma Inv.await_step (h : Inv s) (hstep : step s .await = some s') : Inv s' := by
  have hconserved := h.conserved
  cases h.shape with
  | running hs hset hword =>
    cases hw : s.word with
    | handle n => exact absurd hw (hword n)
    | null =>
      simp only [step, hs, hw, Option.some_inj] at hstep
      have hsignalled : s.signalled = false := by
        rw [Bool.eq_false_iff, ne_eq, h.signalled, hw]
        rintro ⟨⟩
      rw [← hstep]
      refine ⟨.waiting rfl hset rfl, by simp [hsignalled], ?_⟩
      simpa [State.pending, hset, hw] using hconserved
    | self =>
      simp only [step, hs, hw, Option.some_inj] at hstep
      rw [← hstep]
      exact ⟨.clearing rfl hset rfl, by simpa only [hw] using h.signalled,
        by simpa [State.pending, hset, hw] using hconserved⟩
  | clearing hs hset hword => simp [step, hs] at hstep
  | waiting hs hset hword => simp [step, hs] at hstep
  | taken hs hset hword => simp [step, hs] at hstep
  | released hs hset hword => simp [step, hs] at hstep

lemma Inv.clear_step (h : Inv s) (hstep : step s .clear = some s') : Inv s' := by
  have hconserved := h.conserved
  cases h.shape with
  | clearing hs hset hword =>
    simp only [step, hs, Option.some_inj] at hstep
    rw [← hstep]
    refine ⟨.running rfl hset (by rintro n ⟨⟩), by simp, ?_⟩
    simp [State.pending, hset, hword] at hconserved ⊢
    omega
  | running hs hset hword => simp [step, hs] at hstep
  | waiting hs hset hword => simp [step, hs] at hstep
  | taken hs hset hword => simp [step, hs] at hstep
  | released hs hset hword => simp [step, hs] at hstep

/-- There is one call of `set()` at most with a handle in its hands, and it is that of the
coroutine which is suspended. -/
lemma Inv.of_setter (h : Inv s) {i : ℕ} {t : Setter} (hi : s.setters[i]? = some t) :
    i = 0 ∧ s.consumer = .suspended ∧
      (t = .clearing s.awaits ∧ s.setters = [.clearing s.awaits] ∧ s.word = .self ∨
        t = .resuming s.awaits ∧ s.setters = [.resuming s.awaits] ∧ ∀ n, s.word ≠ .handle n) := by
  have hzero {u : Setter} (hset : s.setters = [u]) : i = 0 ∧ t = u := by
    rw [hset] at hi
    cases i with
    | zero => exact ⟨rfl, by simpa using hi.symm⟩
    | succ i => simp at hi
  cases h.shape with
  | running hs hset hword => simp [hset] at hi
  | clearing hs hset hword => simp [hset] at hi
  | waiting hs hset hword => simp [hset] at hi
  | taken hs hset hword => exact ⟨(hzero hset).1, hs, .inl ⟨(hzero hset).2, hset, hword⟩⟩
  | released hs hset hword => exact ⟨(hzero hset).1, hs, .inr ⟨(hzero hset).2, hset, hword⟩⟩

lemma Inv.clearHandle_step (h : Inv s) {i : ℕ} (hstep : step s (.clearHandle i) = some s') :
    Inv s' := by
  have hconserved := h.conserved
  simp only [step] at hstep
  split at hstep
  · next n hi =>
    obtain ⟨rfl, hs, ⟨heq, hset, hword⟩ | ⟨heq, -, -⟩⟩ := h.of_setter hi
    · cases heq
      rw [if_pos ⟨hs, rfl⟩, Option.some_inj] at hstep
      rw [← hstep]
      refine ⟨.released hs (by rw [hset]; rfl) (by rintro n ⟨⟩), by simp, ?_⟩
      simp [State.pending, hset, hword] at hconserved ⊢
      omega
    · cases heq
  · cases hstep

lemma Inv.resume_step (h : Inv s) {i : ℕ} (hstep : step s (.resume i) = some s') : Inv s' := by
  have hconserved := h.conserved
  simp only [step] at hstep
  split at hstep
  · next n hi =>
    obtain ⟨rfl, hs, ⟨heq, -, -⟩ | ⟨heq, hset, hword⟩⟩ := h.of_setter hi
    · cases heq
    · cases heq
      rw [if_pos ⟨hs, rfl⟩, Option.some_inj] at hstep
      rw [← hstep]
      refine ⟨.running rfl (by rw [hset]; rfl) hword, h.signalled, ?_⟩
      simp [State.pending, hset] at hconserved ⊢
      omega
  · cases hstep

lemma step_inv {a : Action} (h : Inv s) (hstep : step s a = some s') : Inv s' := by
  cases a with
  | await => exact h.await_step hstep
  | clear => exact h.clear_step hstep
  | set => exact h.set_step hstep
  | clearHandle i => exact h.clearHandle_step hstep
  | resume i => exact h.resume_step hstep

/-- **A signal is taken, and once.**  Take any interleaving of a consumer with any number of calls
of `set()`.  The assertion of `await_suspend` never fails.  At most one call has a handle in its
hands; what it does with it goes through, and the coroutine it resumes is the one that is
suspended.  A signal that has not been taken is in `m_state`; so if the consumer is suspended at
that time, a call is about to take the signal and to resume it.  If it is suspended without one,
the next `set()` finds its handle.  And it goes on no more often than signals have been given. -/
theorem signal_is_taken (initiallySet : Bool) (as : List Action) (s : State)
    (hrun : machine.run (start initiallySet) as = some s) :
    (s.consumer = .running → ∃ s', step s .await = some s') ∧
    (s.setters.length ≤ 1 ∧
      ∀ i, i < s.setters.length → ∃ a s', (a = .clearHandle i ∨ a = .resume i) ∧
        step s a = some s') ∧
    (s.signalled = true → s.word = .self ∧
      (s.consumer = .suspended → s.setters ≠ [])) ∧
    (s.consumer = .suspended → s.setters = [] → ∃ s', step s .set = some s' ∧ s'.setters ≠ []) ∧
    s.wakes + s.pending ≤ s.signals := by
  have hinv : Inv s := machine.run_invariant (fun _ _ _ => step_inv) (inv_start initiallySet) hrun
  refine ⟨?_, ⟨?_, ?_⟩, ?_, ?_, hinv.conserved⟩
  · intro hs
    refine Option.isSome_iff_exists.mp ?_
    cases hw : s.word with
    | null => simp only [step, hs, hw, Option.isSome_some]
    | self => simp only [step, hs, hw, Option.isSome_some]
    | handle n => cases hinv.shape <;> simp_all
  · cases hinv.shape <;> simp_all
  · intro i hlt
    obtain ⟨hi, hs, ⟨ht, -, -⟩ | ⟨ht, -, -⟩⟩ := hinv.of_setter (List.getElem?_eq_getElem hlt)
    · have hstep : (step s (.clearHandle i)).isSome := by
        simp only [step, List.getElem?_eq_getElem hlt, ht, hs, and_self, if_true,
          Option.isSome_some]
      obtain ⟨s', hs'⟩ := Option.isSome_iff_exists.mp hstep
      exact ⟨_, s', .inl rfl, hs'⟩
    · have hstep : (step s (.resume i)).isSome := by
        simp only [step, List.getElem?_eq_getElem hlt, ht, hs, and_self, if_true,
          Option.isSome_some]
      obtain ⟨s', hs'⟩ := Option.isSome_iff_exists.mp hstep
      exact ⟨_, s', .inr rfl, hs'⟩
  · intro hsignalled
    refine ⟨hinv.signalled.mp hsignalled, fun hs hnil => ?_⟩
    have hself := hinv.signalled.mp hsignalled
    cases hinv.shape <;> simp_all
  · intro hs hnil
    refine ⟨_, rfl, ?_⟩
    cases hinv.shape <;> simp_all

/-- The consumer is suspended, a `set()` takes it out of `m_state`, and a second one comes before
the first has cleared the signal. -/
def overlappingSets : List Action := [.await, .set, .set, .clearHandle 0, .resume 0]

theorem signal_is_taken_overlapping :
    ∃ s, machine.run (start false) overlappingSets = some s ∧ s.signals = 2 ∧ s.word = .null ∧
      s.wakes + s.pending ≤ 2 := by
  obtain ⟨-, -, -, -, hconserved⟩ := signal_is_taken false overlappingSets _ rfl
  exact ⟨_, rfl, rfl, rfl, hconserved⟩

/-! ## On one thread -/

/-- The event without the identity of the handle. -/
def Word.event : Word → AutoResetEvent
  | .null => .notSet
  | .self => .set
  | .handle _ => .waiting

/-- Without a waiting coroutine `set()` is one exchange. -/
lemma set_of_not_waiting (hword : ∀ n, s.word ≠ .handle n) :
    step s .set = some { s with word := .self, signalled := true, signals := s.signals + 1 } ∧
      s.word.event.signal = (.set, false) := by
  cases hw : s.word with
  | null => exact ⟨by simp only [step, hw], rfl⟩
  | self => exact ⟨by simp only [step, hw], rfl⟩
  | handle n => exact absurd hw (hword n)

/-- With no other call under way, a `set()` that is not interrupted is `signal`. -/
theorem run_set_eq_signal (h : Inv s) (hset : s.setters = []) :
    ∃ as s', machine.run s (.set :: as) = some s' ∧ s'.setters = [] ∧
      s'.word.event = s.word.event.signal.1 ∧
      s'.wakes = s.wakes + s.word.event.signal.2.toNat := by
  by_cases hword : ∀ n, s.word ≠ .handle n
  · obtain ⟨hstep, hsignal⟩ := set_of_not_waiting hword
    refine ⟨[], _, machine.run_cons_eq_some.mpr ⟨_, hstep, rfl⟩, hset, ?_, ?_⟩
    · rw [hsignal]
      rfl
    · rw [hsignal]
      rfl
  · cases h.shape with
    | waiting hs _ hhandle =>
      refine ⟨[.clearHandle 0, .resume 0], { s with
        word := .null, consumer := .running, setters := [], signalled := false,
        signals := s.signals + 1, wakes := s.wakes + 1 }, ?_, rfl, ?_, ?_⟩
      · simp [machine, Machine.run, step, hs, hset, hhandle]
      · rw [hhandle]
        rfl
      · rw [hhandle]
        rfl
    | running _ _ hno => exact absurd hno hword
    | clearing _ _ hself =>
      rw [hself] at hword
      exact absurd (by rintro n ⟨⟩) hword
    | taken _ hlist _ => simp [hset] at hlist
    | released _ hlist _ => simp [hset] at hlist

end Coring.AutoReset
