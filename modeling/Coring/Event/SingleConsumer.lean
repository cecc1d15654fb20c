import Coring.Framework.Machine

/-!
# Events with one consumer

A `single_consumer_event` is a flag that any thread sets and resets and that one coroutine at a
time awaits.  This file embeds `include/coring/single_consumer_event.hpp` with each atomic access
to `m_state` and each plain access to `m_awaiter` as a step of its own, for calls of `set()` and
`reset()` on any number of threads.

Between the exchange of a `set()` and its `m_awaiter.resume()` other calls may come, so the calls
that are there are counted in `resumers`.  The coroutine that awaits is named by the number of its
`co_await`, which stands for the handle it stores.
-/

namespace Coring.SingleConsumerEvent

/-- `m_state`. -/
inductive EventState
  | notSet
  | notSetConsumerWaiting
  | set
  deriving Repr, DecidableEq

/-- Where the consumer is. -/
inductive ConsumerPc
  | running
  /-- Behind an `await_ready` that has not seen the event set. -/
  | storing
  /-- Behind the store to `m_awaiter`. -/
  | exchanging
  | suspended
  deriving Repr, DecidableEq

structure State where
  state : EventState
  /-- `m_awaiter`, by the number of the `co_await` it was stored in. -/
  awaiter : Option ℕ
  consumer : ConsumerPc
  /-- The number of the consumer's latest `co_await`. -/
  awaits : ℕ
  /-- The calls of `set()` between the exchange and the resumption. -/
  resumers : ℕ
  /-- The event has been set at some time since the latest `co_await` began. -/
  seen : Bool
  deriving Repr, DecidableEq

/-- `single_consumer_event(initiallySet)`. -/
def start (initiallySet : Bool) : State :=
  ⟨if initiallySet then .set else .notSet, none, .running, 0, 0, initiallySet⟩

inductive Action
  /-- `is_set()` in `await_ready`, -/
  | await
  /-- the store of `await_suspend`, -/
  | store
  /-- and its `compare_exchange_strong`. -/
  | exchange
  /-- The exchange of a `set()`. -/
  | set
  /-- `m_awaiter.resume()` of a `set()`. -/
  | resume
  /-- `reset()`. -/
  | reset
  deriving Repr, DecidableEq

def step (s : State) : Action → Option State
  | .await =>
      match s.consumer with
      | .running =>
          let isSet := s.state = .set
          some { s with
            consumer := if isSet then .running else .storing
            awaits := s.awaits + 1
            seen := isSet }
      | _ => none
  | .store =>
      match s.consumer with
      | .storing => some { s with awaiter := some s.awaits, consumer := .exchanging }
      | _ => none
  | .exchange =>
      match s.consumer with
      | .exchanging =>
          if s.state = .notSet then
            some { s with state := .notSetConsumerWaiting, consumer := .suspended }
          else some { s with consumer := .running }
      | _ => none
  | .set =>
      some { s with
        state := .set
        resumers := if s.state = .notSetConsumerWaiting then s.resumers + 1 else s.resumers
        seen := true }
  | .resume =>
      -- A coroutine that is not suspended must not be resumed, and no other one either.
      if s.resumers ≠ 0 ∧ s.awaiter = some s.awaits ∧ s.consumer = .suspended then
        some { s with resumers := s.resumers - 1, consumer := .running }
      else none
  | .reset => some { s with state := if s.state = .set then .notSet else s.state }

def machine : Machine State Action := ⟨step⟩

/-- Behind the store the handle of the current `co_await` is there. -/
def ConsumerPc.Stored : ConsumerPc → Prop
  | .exchanging | .suspended => True
  | .running | .storing => False

structure Inv (s : State) : Prop where
  stored : s.consumer.Stored → s.awaiter = some s.awaits
  waiting : s.state = .notSetConsumerWaiting → s.consumer = .suspended ∧ s.resumers = 0
  suspended : s.consumer = .suspended → s.state = .notSetConsumerWaiting ∨ s.resumers = 1
  resumers : s.resumers ≠ 0 → s.consumer = .suspended ∧ s.resumers = 1 ∧ s.seen = true
  /-- A set event has been seen. -/
  set : s.state = .set → s.seen = true
  running : s.consumer = .running → s.awaits = 0 ∨ s.seen = true

lemma inv_start (initiallySet : Bool) : Inv (start initiallySet) := by
  cases initiallySet <;> constructor <;> simp [start, ConsumerPc.Stored]

variable {s s' : State}

lemma Inv.set_step (h : Inv s) : Inv { s with
    state := .set
    resumers := if s.state = .notSetConsumerWaiting then s.resumers + 1 else s.resumers
    seen := true } := by
  by_cases hwaiting : s.state = .notSetConsumerWaiting
  · obtain ⟨hsuspended, hzero⟩ := h.waiting hwaiting
    simp only [if_pos hwaiting, hzero, Nat.zero_add]
    exact ⟨h.stored, by rintro ⟨⟩, fun _ => .inr rfl, fun _ => ⟨hsuspended, rfl, rfl⟩,
      fun _ => rfl, fun _ => .inr rfl⟩
  · simp only [if_neg hwaiting]
    exact ⟨h.stored, by rintro ⟨⟩, fun hs => .inr ((h.suspended hs).resolve_left hwaiting),
      fun hr => ⟨(h.resumers hr).1, (h.resumers hr).2.1, rfl⟩, fun _ => rfl, fun _ => .inr rfl⟩

lemma Inv.reset_step (h : Inv s) :
    Inv { s with state := if s.state = .set then .notSet else s.state } := by
  by_cases hset : s.state = .set
  · simp only [if_pos hset]
    refine ⟨h.stored, by rintro ⟨⟩, fun hs => .inr ?_, h.resumers, by rintro ⟨⟩, h.running⟩
    exact (h.suspended hs).resolve_left (by rw [hset]; rintro ⟨⟩)
  · simp only [if_neg hset]
    exact h

/-- Nobody is to be resumed while the consumer is not suspended. -/
lemma Inv.no_resumers (h : Inv s) (hs : s.consumer ≠ .suspended) : s.resumers = 0 := by
  by_contra hne
  exact hs (h.resumers hne).1

lemma Inv.not_waiting (h : Inv s) (hs : s.consumer ≠ .suspended) :
    s.state ≠ .notSetConsumerWaiting :=
  fun hwaiting => hs (h.waiting hwaiting).1

lemma step_inv {a : Action} (h : Inv s) (hstep : step s a = some s') : Inv s' := by
  cases a with
  | await =>
    simp only [step] at hstep
    split at hstep
    · next hs =>
      have hne : s.consumer ≠ .suspended := by
        rw [hs]
        rintro ⟨⟩
      rw [← Option.some_inj.mp hstep]
      refine ⟨?_, fun hw => absurd hw (h.not_waiting hne), ?_,
        fun hr => absurd (h.no_resumers hne) hr, by simp, ?_⟩
      · dsimp only
        split <;> rintro ⟨⟩
      · dsimp only
        split <;> rintro ⟨⟩
      · by_cases hset : s.state = .set <;> simp [hset]
    · cases hstep
  | store =>
    simp only [step] at hstep
    split at hstep
    · next hs =>
      have hne : s.consumer ≠ .suspended := by
        rw [hs]
        rintro ⟨⟩
      rw [← Option.some_inj.mp hstep]
      exact ⟨fun _ => rfl, fun hw => absurd hw (h.not_waiting hne), by rintro ⟨⟩,
        fun hr => absurd (h.no_resumers hne) hr, h.set, by rintro ⟨⟩⟩
    · cases hstep
  | exchange =>
    simp only [step] at hstep
    split at hstep
    · next hs =>
      have hne : s.consumer ≠ .suspended := by
        rw [hs]
        rintro ⟨⟩
      have hstored := h.stored (by rw [hs]; trivial)
      have hzero := h.no_resumers hne
      split at hstep
      · rw [← Option.some_inj.mp hstep]
        exact ⟨fun _ => hstored, fun _ => ⟨rfl, hzero⟩, fun _ => .inl rfl,
          fun hr => absurd hzero hr, by rintro ⟨⟩, by rintro ⟨⟩⟩
      · next hnotSet =>
        -- The exchange fails on a set event only: nobody is waiting.
        have hset : s.state = .set := by
          cases hstate : s.state with
          | notSet => exact absurd hstate hnotSet
          | notSetConsumerWaiting => exact absurd hstate (h.not_waiting hne)
          | set => rfl
        rw [← Option.some_inj.mp hstep]
        exact ⟨by rintro ⟨⟩, fun hw => absurd hw (h.not_waiting hne), by rintro ⟨⟩,
          fun hr => absurd hzero hr, h.set, fun _ => .inr (h.set hset)⟩
    · cases hstep
  | set =>
    simp only [step, Option.some_inj] at hstep
    rw [← hstep]
    exact h.set_step
  | resume =>
    simp only [step] at hstep
    split at hstep
    · next hr =>
      obtain ⟨-, hone, hseen⟩ := h.resumers hr.1
      have hstate : s.state ≠ .notSetConsumerWaiting := fun hw => hr.1 (h.waiting hw).2
      rw [← Option.some_inj.mp hstep]
      refine ⟨by rintro ⟨⟩, fun hw => absurd hw hstate, by rintro ⟨⟩, ?_, h.set,
        fun _ => .inr hseen⟩
      simp [hone]
    · cases hstep
  | reset =>
    simp only [step, Option.some_inj] at hstep
    rw [← hstep]
    exact h.reset_step

/-- **A set is neither missed nor imagined.**  Take any interleaving of a consumer that awaits the
event again and again with calls of `set()` and `reset()` on any threads.  At most one call is to
resume the consumer, and when it does, it finds it suspended, with the handle of its current
`co_await`.  While the consumer is suspended, either the event says so and the next `set()` will
resume it, or one call is about to.  And whenever the consumer is behind a `co_await`, the event
has been set at some time since that `co_await` began. -/
theorem consumer_continues_iff_set (initiallySet : Bool) (as : List Action) (s : State)
    (hrun : machine.run (start initiallySet) as = some s) :
    (s.resumers ≠ 0 → s.resumers = 1 ∧ ∃ s', step s .resume = some s' ∧ s'.consumer = .running) ∧
    (s.consumer = .suspended → ∃ s', step s .set = some s' ∧ s'.resumers = 1) ∧
    (s.consumer = .suspended → s.resumers = 0 → s.state = .notSetConsumerWaiting) ∧
    (s.consumer = .running → s.awaits ≠ 0 → s.seen = true) := by
  have hinv : Inv s := machine.run_invariant (fun _ _ _ => step_inv) (inv_start initiallySet) hrun
  refine ⟨?_, ?_, ?_, ?_⟩
  · intro hr
    obtain ⟨hs, hone, -⟩ := hinv.resumers hr
    have hstored := hinv.stored (by rw [hs]; trivial)
    exact ⟨hone, _, if_pos ⟨hr, hstored, hs⟩, rfl⟩
  · intro hs
    refine ⟨_, rfl, ?_⟩
    by_cases hwaiting : s.state = .notSetConsumerWaiting
    · simp only [if_pos hwaiting, (hinv.waiting hwaiting).2]
    · simp only [if_neg hwaiting]
      exact (hinv.suspended hs).resolve_left hwaiting
  · exact fun hs hzero => (hinv.suspended hs).resolve_right (by rw [hzero]; rintro ⟨⟩)
  · exact fun hs hne => (hinv.running hs).resolve_left hne

/-- The consumer is suspended; two calls of `set()` and a `reset()` come before it is resumed. -/
def resetBeforeResumption : List Action := [.await, .store, .exchange, .set, .set, .reset]

theorem consumer_continues_iff_set_reset :
    ∃ s s', machine.run (start false) resetBeforeResumption = some s ∧ s.state = .notSet ∧
      step s .resume = some s' ∧ s'.consumer = .running := by
  obtain ⟨hresume, -⟩ := consumer_continues_iff_set false resetBeforeResumption _ rfl
  obtain ⟨-, s', hs', hrunning⟩ := hresume (by decide)
  exact ⟨_, s', rfl, rfl, hs', hrunning⟩

end Coring.SingleConsumerEvent
