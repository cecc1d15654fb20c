import Coring.Timer.Refinement

/-!
# The timer loop of an `io_context`

An `io_context` keeps its timer going with one coroutine, `init_timeout_callback`: as long as
there are timeouts it awaits a kernel timeout for the earliest of them and then calls
`handle_events`; without any it awaits `timer_event_`, an auto-reset event that
`register_timeout` sets.  This file embeds the two, with the event of
`single_consumer_async_auto_reset_event.hpp`, as one machine.

Everything happens on the thread of the context.  A coroutine of the program runs while the
loop is suspended, or inside `handle_events` as a resumed continuation; it may call
`register_timeout`, which resumes a loop that waits for the event on the spot, before it
returns.  The kernel completes an awaited timeout at or after its expiration.

`parks` and `wakes` count how often the loop was suspended on the event and how often it was
resumed by it.
-/

namespace Coring

/-! ## The event -/

/-- `m_state`: null, the event itself, or the address of a coroutine handle. -/
inductive AutoResetEvent
  | notSet
  | set
  | waiting
  deriving Repr, DecidableEq

namespace AutoResetEvent

/-- `set()`: the new state, and whether the waiting coroutine is resumed. -/
def signal : AutoResetEvent → AutoResetEvent × Bool
  -- The state is exchanged for `set`; a waiter found there is resumed after an exchange for null.
  | .waiting => (.notSet, true)
  | .notSet | .set => (.set, false)

/-- `await_suspend`: the new state, and whether the coroutine stays suspended; there must be no
other waiter. -/
def awaitSuspend : AutoResetEvent → Option (AutoResetEvent × Bool)
  | .notSet => some (.waiting, true)
  | .set => some (.notSet, false)
  | .waiting => none

end AutoResetEvent

namespace TimerLoop

/-! ## The machine -/

/-- Where `init_timeout_callback` is. -/
inductive Pc
  /-- Not yet called by `do_run`. -/
  | notStarted
  /-- Before `while (!stopped_)`. -/
  | outer
  /-- Before `while (timer_.has_more_timeouts())`. -/
  | inner
  /-- Suspended on a kernel timeout armed at a time and expiring at another, in nanoseconds. -/
  | sleeping (armed : Long) (expires : ℤ)
  /-- In `timer_.handle_events()`. -/
  | handling
  /-- Before `co_await timer_event_`. -/
  | await
  /-- Suspended there. -/
  | parked
  | finished
  deriving DecidableEq

structure State where
  /-- `timer_`, with the clock. -/
  timer : Timer.State
  /-- `timer_event_`. -/
  event : AutoResetEvent
  /-- `stopped_`. -/
  stopped : Bool
  pc : Pc
  parks : ℕ
  wakes : ℕ

/-- A context at the beginning of `do_run`. -/
def start (clock : Long) : State :=
  ⟨Timer.start clock, .notSet, false, .notStarted, 0, 0⟩

inductive Action
  | tick (ns : ℕ)
  /-- A coroutine calls `register_timeout`. -/
  | registerTimeout (cont : Handle) (exp : Long) (level : Level)
  /-- `stopped_ = true`. -/
  | stop
  /-- `do_run` calls `init_timeout_callback`. -/
  | startLoop
  /-- The loop makes its next test, arms a timeout, or awaits the event. -/
  | loop
  /-- The awaited kernel timeout completes. -/
  | kernelTimeout
  /-- `handle_events` resumes a continuation, gets back control from it, or ends a round. -/
  | resume
  | suspend
  | finishRound

/-- Code of the program is running. -/
def InProgram (s : State) : Bool :=
  match s.pc with
  | .notStarted | .sleeping .. | .parked | .finished => true
  | .handling => s.timer.pc ≠ .idle ∧ s.timer.pc.InProgram
  | .outer | .inner | .await => false

/-- `register_timeout`. -/
def registerTimeout (s : State) (cont : Handle) (exp : Long) (level : Level) : Option State := do
  let timer ← Timer.addEvent s.timer cont exp level
  let (event, resumed) := s.event.signal
  let s := { s with timer := timer, event := event }
  if resumed then some { s with pc := .outer, wakes := s.wakes + 1 } else some s

/-- The next step of `init_timeout_callback`. -/
def loop (s : State) : Option State :=
  match s.pc with
  | .outer => some { s with pc := if s.stopped then .finished else .inner }
  | .inner =>
      if Timer.hasMoreTimeouts s.timer then do
        let tmp ← Timer.getNextExpiration s.timer
        some { s with pc := .sleeping s.timer.clock (tmp.expiry s.timer.clock) }
      else some { s with pc := .await }
  | .handling => if s.timer.pc = .idle then some { s with pc := .inner } else none
  | .await => do
      let (event, suspended) ← s.event.awaitSuspend
      if suspended then some { s with event := event, pc := .parked, parks := s.parks + 1 }
      else some { s with event := event, pc := .outer }
  | _ => none

/-- A step of the timer alone. -/
def timerStep (s : State) (a : Timer.Action) : Option State := do
  let timer ← Timer.step s.timer a
  some { s with timer := timer }

def step (s : State) : Action → Option State
  | .tick ns => timerStep s (.tick ns)
  | .registerTimeout cont exp level =>
      if InProgram s then registerTimeout s cont exp level else none
  | .stop => if InProgram s then some { s with stopped := true } else none
  | .startLoop => if s.pc = .notStarted then some { s with pc := .outer } else none
  | .loop => loop s
  | .kernelTimeout =>
      match s.pc with
      | .sleeping _ expires =>
          if expires ≤ s.timer.clock.1 then timerStep { s with pc := .handling } .handleEvents
          else none
      | _ => none
  | .resume => if s.pc = .handling then timerStep s .resume else none
  | .suspend => if s.pc = .handling then timerStep s .suspend else none
  | .finishRound => if s.pc = .handling then timerStep s .finish else none

def machine : Machine State Action := ⟨step⟩

/-- When an action can be taken. -/
def Enabled (s : State) : Action → Prop
  | .tick ns => Timer.Enabled s.timer (.tick ns)
  | .registerTimeout .. | .stop => InProgram s = true
  | .startLoop => s.pc = .notStarted
  | .loop => s.pc = .outer ∨ s.pc = .inner ∨ s.pc = .await ∨
      s.pc = .handling ∧ s.timer.pc = .idle
  | .kernelTimeout => ∃ a e, s.pc = .sleeping a e ∧ e ≤ s.timer.clock.1
  | .resume => s.pc = .handling ∧ Timer.Enabled s.timer .resume
  | .suspend => s.pc = .handling ∧ Timer.Enabled s.timer .suspend
  | .finishRound => s.pc = .handling ∧ Timer.Enabled s.timer .finish

/-! ## The invariant -/

/-- How the queue, the event and the position of the loop belong together. -/
structure Inv (s : State) : Prop where
  tracks : ∃ cells loose, Timer.Tracks s.timer cells loose
  idle : s.pc ≠ .handling → s.timer.pc = .idle
  waiting : s.event = .waiting ↔ s.pc = .parked
  empty : s.pc = .await ∨ s.pc = .parked → s.timer.queue.isEmpty = true
  count : s.parks = s.wakes + if s.pc = .parked then 1 else 0

lemma inv_start (clock : Long) : Inv (start clock) where
  tracks := ⟨[], [], Timer.tracks_start clock⟩
  idle := fun _ => rfl
  waiting := by simp [start]
  empty := by simp [start]
  count := rfl

variable {s s' : State}

lemma timerStep_eq_some {a : Timer.Action} :
    timerStep s a = some s' ↔ ∃ t, Timer.step s.timer a = some t ∧ s' = { s with timer := t } := by
  simp only [timerStep, Option.bind_eq_bind, Option.bind_eq_some_iff, Option.some_inj]
  exact exists_congr fun t => and_congr_right fun _ => eq_comm

/-! ## What a step does -/

/-- What `init_timeout_callback` does next. -/
inductive LoopStep (s : State) : State → Prop
  | test (hpc : s.pc = .outer) : LoopStep s { s with pc := if s.stopped then .finished else .inner }
  | arm (hpc : s.pc = .inner) (hmore : Timer.hasMoreTimeouts s.timer = true) {tmp : Timespec}
      (htmp : Timer.getNextExpiration s.timer = some tmp) :
      LoopStep s { s with pc := .sleeping s.timer.clock (tmp.expiry s.timer.clock) }
  | drained (hpc : s.pc = .inner) (hmore : ¬ Timer.hasMoreTimeouts s.timer = true) :
      LoopStep s { s with pc := .await }
  | handled (hpc : s.pc = .handling) (hidle : s.timer.pc = .idle) :
      LoopStep s { s with pc := .inner }
  | park (hpc : s.pc = .await) (hevent : s.event = .notSet) :
      LoopStep s { s with event := .waiting, pc := .parked, parks := s.parks + 1 }
  | pass (hpc : s.pc = .await) (hevent : s.event = .set) :
      LoopStep s { s with event := .notSet, pc := .outer }

/-- What an action does. -/
inductive Step (s : State) : Action → State → Prop
  | tick {ns : ℕ} {t : Timer.State} (ht : Timer.step s.timer (.tick ns) = some t) :
      Step s (.tick ns) { s with timer := t }
  | registerTimeout {cont : Handle} {exp : Long} {level : Level} {s' : State}
      (hprog : InProgram s = true) (hs : registerTimeout s cont exp level = some s') :
      Step s (.registerTimeout cont exp level) s'
  | stop (hprog : InProgram s = true) : Step s .stop { s with stopped := true }
  | startLoop (hpc : s.pc = .notStarted) : Step s .startLoop { s with pc := .outer }
  | loop {s' : State} (hs : LoopStep s s') : Step s .loop s'
  | kernelTimeout {armed : Long} {expires : ℤ} {t : Timer.State}
      (hpc : s.pc = .sleeping armed expires) (hexpired : expires ≤ s.timer.clock.1)
      (ht : Timer.step s.timer .handleEvents = some t) :
      Step s .kernelTimeout { s with timer := t, pc := .handling }
  | resume {t : Timer.State} (hpc : s.pc = .handling)
      (ht : Timer.step s.timer .resume = some t) : Step s .resume { s with timer := t }
  | suspend {t : Timer.State} (hpc : s.pc = .handling)
      (ht : Timer.step s.timer .suspend = some t) : Step s .suspend { s with timer := t }
  | finishRound {t : Timer.State} (hpc : s.pc = .handling)
      (ht : Timer.step s.timer .finish = some t) : Step s .finishRound { s with timer := t }

lemma loop_cases (hs : loop s = some s') : LoopStep s s' := by
  cases hpc : s.pc with
  | outer =>
    simp only [loop, hpc, Option.some_inj] at hs
    exact hs ▸ .test hpc
  | inner =>
    simp only [loop, hpc] at hs
    split at hs
    · next hmore =>
      simp only [Option.bind_eq_bind, Option.bind_eq_some_iff, Option.some_inj] at hs
      obtain ⟨tmp, htmp, rfl⟩ := hs
      exact .arm hpc hmore htmp
    · next hmore => exact Option.some_inj.mp hs ▸ .drained hpc hmore
  | handling =>
    simp only [loop, hpc] at hs
    split at hs
    · next hidle => exact Option.some_inj.mp hs ▸ .handled hpc hidle
    · cases hs
  | await =>
    cases hevent : s.event with
    | waiting =>
      simp only [loop, hpc, hevent, AutoResetEvent.awaitSuspend, Option.bind_eq_bind] at hs
      cases hs
    | notSet =>
      simp only [loop, hpc, hevent, AutoResetEvent.awaitSuspend, Option.bind_eq_bind,
        Option.bind_some, if_true, Option.some_inj] at hs
      exact hs ▸ .park hpc hevent
    | set =>
      simp only [loop, hpc, hevent, AutoResetEvent.awaitSuspend, Option.bind_eq_bind,
        Option.bind_some, Bool.false_eq_true, if_false, Option.some_inj] at hs
      exact hs ▸ .pass hpc hevent
  | notStarted => simp only [loop, hpc] at hs; cases hs
  | sleeping armed expires => simp only [loop, hpc] at hs; cases hs
  | parked => simp only [loop, hpc] at hs; cases hs
  | finished => simp only [loop, hpc] at hs; cases hs

lemma step_cases {a : Action} (hs : step s a = some s') : Step s a s' := by
  cases a with
  | tick ns =>
    obtain ⟨t, ht, rfl⟩ := timerStep_eq_some.mp hs
    exact .tick ht
  | registerTimeout cont exp level =>
    obtain ⟨hprog, hs⟩ := Option.ite_none_right_eq_some.mp hs
    exact .registerTimeout hprog hs
  | stop =>
    obtain ⟨hprog, hs⟩ := Option.ite_none_right_eq_some.mp hs
    exact Option.some_inj.mp hs ▸ .stop hprog
  | startLoop =>
    obtain ⟨hpc, hs⟩ := Option.ite_none_right_eq_some.mp hs
    exact Option.some_inj.mp hs ▸ .startLoop hpc
  | loop => exact .loop (loop_cases hs)
  | kernelTimeout =>
    simp only [step] at hs
    split at hs
    · next armed expires hpc =>
      obtain ⟨hexpired, hs⟩ := Option.ite_none_right_eq_some.mp hs
      obtain ⟨t, ht, rfl⟩ := timerStep_eq_some.mp hs
      exact .kernelTimeout hpc hexpired ht
    · cases hs
  | resume =>
    obtain ⟨hpc, hs⟩ := Option.ite_none_right_eq_some.mp hs
    obtain ⟨t, ht, rfl⟩ := timerStep_eq_some.mp hs
    exact .resume hpc ht
  | suspend =>
    obtain ⟨hpc, hs⟩ := Option.ite_none_right_eq_some.mp hs
    obtain ⟨t, ht, rfl⟩ := timerStep_eq_some.mp hs
    exact .suspend hpc ht
  | finishRound =>
    obtain ⟨hpc, hs⟩ := Option.ite_none_right_eq_some.mp hs
    obtain ⟨t, ht, rfl⟩ := timerStep_eq_some.mp hs
    exact .finishRound hpc ht

/-! ## Each step keeps the invariant -/

lemma Inv.tracks_step (h : Inv s) {a : Timer.Action} {t : Timer.State}
    (ht : Timer.step s.timer a = some t) : ∃ cells loose, Timer.Tracks t cells loose := by
  obtain ⟨cells, loose, htracks⟩ := h.tracks
  obtain ⟨cells', loose', htracks', -⟩ := htracks.step ht
  exact ⟨cells', loose', htracks'⟩

/-- A step of `handle_events` while the loop is in it. -/
lemma Inv.handling (h : Inv s) (hpc : s.pc = .handling) {a : Timer.Action} {t : Timer.State}
    (ht : Timer.step s.timer a = some t) : Inv { s with timer := t } := by
  refine ⟨h.tracks_step ht, fun hne => absurd hpc hne, h.waiting, fun hc => ?_, h.count⟩
  simp [hpc] at hc

/-- `set()` while the loop is not parked resumes nothing. -/
lemma Inv.signal_eq (h : Inv s) (hpark : s.pc ≠ .parked) : s.event.signal = (.set, false) := by
  cases he : s.event with
  | waiting => exact absurd (h.waiting.mp he) hpark
  | notSet => rfl
  | set => rfl

lemma Inv.registerTimeout (h : Inv s) (hprog : InProgram s = true) {cont : Handle} {exp : Long}
    {level : Level} (hs : registerTimeout s cont exp level = some s') : Inv s' := by
  obtain ⟨cells, loose, htracks⟩ := h.tracks
  obtain ⟨t, cells', loose', ht, htracks', -⟩ :=
    Timer.addEvent_simulates htracks cont exp level
  have hframe := Timer.addEvent_frame ht
  have hpc : s.pc ≠ .await := fun hc => by simp [InProgram, hc] at hprog
  simp only [TimerLoop.registerTimeout, ht, Option.bind_eq_bind, Option.bind_some] at hs
  by_cases hpark : s.pc = .parked
  · have hev := h.waiting.mpr hpark
    simp only [hev, AutoResetEvent.signal, if_true, Option.some_inj] at hs
    subst hs
    refine ⟨⟨cells', loose', htracks'⟩, fun _ => hframe.1.trans (h.idle (by simp [hpark])),
      by simp, by simp, ?_⟩
    simp [h.count, hpark]
  · simp only [h.signal_eq hpark, Bool.false_eq_true, if_false, Option.some_inj] at hs
    subst hs
    exact ⟨⟨cells', loose', htracks'⟩, fun hne => hframe.1.trans (h.idle hne),
      by simp [hpark], by simp [hpark, hpc], h.count⟩

lemma Inv.loop (h : Inv s) (hs : LoopStep s s') : Inv s' := by
  obtain ⟨htracks, hidle, hwait, hempty, hcount⟩ := h
  cases hs with
  | test hpc =>
    have hidle := hidle (by simp [hpc])
    rw [hpc] at hwait hcount
    cases hstopped : s.stopped
    · exact ⟨htracks, fun _ => hidle, by simpa [hstopped] using hwait, by simp,
        by simpa [hstopped] using hcount⟩
    · exact ⟨htracks, fun _ => hidle, by simpa [hstopped] using hwait, by simp,
        by simpa [hstopped] using hcount⟩
  | arm hpc hmore htmp =>
    have hidle := hidle (by simp [hpc])
    rw [hpc] at hwait hcount
    exact ⟨htracks, fun _ => hidle, by simpa using hwait, by simp, by simpa using hcount⟩
  | drained hpc hmore =>
    have hidle := hidle (by simp [hpc])
    rw [hpc] at hwait hcount
    exact ⟨htracks, fun _ => hidle, by simpa using hwait,
      fun _ => by simpa [Timer.hasMoreTimeouts] using hmore, by simpa using hcount⟩
  | handled hpc hidle' =>
    rw [hpc] at hwait hcount
    exact ⟨htracks, fun _ => hidle', by simpa using hwait, by simp, by simpa using hcount⟩
  | park hpc hevent =>
    have hidle := hidle (by simp [hpc])
    have hempty := hempty (.inl hpc)
    rw [hpc] at hcount
    exact ⟨htracks, fun _ => hidle, by simp, fun _ => hempty, by simpa using hcount⟩
  | pass hpc hevent =>
    have hidle := hidle (by simp [hpc])
    rw [hpc] at hcount
    exact ⟨htracks, fun _ => hidle, by simp, by simp, by simpa using hcount⟩

lemma step_inv {a : Action} (h : Inv s) (hs : step s a = some s') : Inv s' := by
  cases step_cases hs with
  | tick ht =>
    have hframe := Timer.tick_frame ht
    exact ⟨h.tracks_step ht, fun hne => hframe.1.trans (h.idle hne), h.waiting,
      fun hc => by rw [hframe.2]; exact h.empty hc, h.count⟩
  | registerTimeout hprog hs => exact h.registerTimeout hprog hs
  | stop hprog => exact ⟨h.tracks, h.idle, h.waiting, h.empty, h.count⟩
  | startLoop hpc =>
    exact ⟨h.tracks, fun _ => h.idle (by simp [hpc]), by simpa [hpc] using h.waiting, by simp,
      by simpa [hpc] using h.count⟩
  | loop hs => exact h.loop hs
  | kernelTimeout hpc hexpired ht =>
    have hh : Inv { s with pc := .handling } :=
      ⟨h.tracks, fun hne => absurd rfl hne, by simpa [hpc] using h.waiting, by simp,
        by simpa [hpc] using h.count⟩
    exact hh.handling rfl ht
  | resume hpc ht => exact h.handling hpc ht
  | suspend hpc ht => exact h.handling hpc ht
  | finishRound hpc ht => exact h.handling hpc ht

lemma inv_of_reachable {clock : Long} (h : machine.Reachable (start clock) s) : Inv s :=
  Machine.Reachable.invariant machine h (inv_start clock) fun _ _ _ => step_inv

/-! ## Progress -/

lemma timerStep_succeeds (h : Inv s) {a : Timer.Action} (ha : Timer.Enabled s.timer a) :
    ∃ s', timerStep s a = some s' := by
  obtain ⟨cells, loose, htracks⟩ := h.tracks
  obtain ⟨t, -, -, ht, -⟩ := Timer.step_tracks htracks ha
  exact ⟨_, timerStep_eq_some.mpr ⟨t, ht, rfl⟩⟩

lemma registerTimeout_succeeds (h : Inv s) (cont : Handle) (exp : Long) (level : Level) :
    ∃ s', registerTimeout s cont exp level = some s' := by
  obtain ⟨cells, loose, htracks⟩ := h.tracks
  obtain ⟨t, -, -, ht, -⟩ := Timer.addEvent_simulates htracks cont exp level
  simp only [registerTimeout, ht, Option.bind_eq_bind, Option.bind_some]
  split
  · exact ⟨_, rfl⟩
  · exact ⟨_, rfl⟩

lemma loop_succeeds (h : Inv s) (ha : Enabled s .loop) : ∃ s', loop s = some s' := by
  rcases ha with hpc | hpc | hpc | ⟨hpc, hidle⟩
  · simp only [loop, hpc]
    exact ⟨_, rfl⟩
  · simp only [loop, hpc]
    split
    · next hmore =>
      obtain ⟨cells, loose, htracks⟩ := h.tracks
      have hset := htracks.settled (h.idle (by simp [hpc]))
      cases cells with
      | nil =>
        rw [Timer.hasMoreTimeouts, (Timer.isEmpty_iff hset).mpr rfl] at hmore
        cases hmore
      | cons c cells =>
        simp only [Timer.getNextExpiration_spec hset.rep, Option.bind_eq_bind, Option.bind_some]
        exact ⟨_, rfl⟩
    · exact ⟨_, rfl⟩
  · have hev : s.event ≠ .waiting := fun hc => by
      have := h.waiting.mp hc
      simp [hpc] at this
    simp only [loop, hpc]
    cases he : s.event with
    | waiting => exact absurd he hev
    | notSet => exact ⟨_, rfl⟩
    | set => exact ⟨_, rfl⟩
  · simp only [loop, hpc, hidle, if_true]
    exact ⟨_, rfl⟩

lemma step_succeeds (h : Inv s) {a : Action} (ha : Enabled s a) : ∃ s', step s a = some s' := by
  cases a with
  | tick ns => exact timerStep_succeeds h ha
  | registerTimeout cont exp level =>
    simp only [step, if_pos (show InProgram s = true from ha)]
    exact registerTimeout_succeeds h cont exp level
  | stop =>
    simp only [step, if_pos (show InProgram s = true from ha)]
    exact ⟨_, rfl⟩
  | startLoop =>
    simp only [step, if_pos (show s.pc = .notStarted from ha)]
    exact ⟨_, rfl⟩
  | loop => exact loop_succeeds h ha
  | kernelTimeout =>
    obtain ⟨a, e, hpc, hle⟩ := ha
    have hidle := h.idle (by simp [hpc])
    obtain ⟨cells, loose, htracks⟩ := h.tracks
    obtain ⟨t, -, -, ht, -⟩ :=
      Timer.step_tracks htracks (show Timer.Enabled s.timer .handleEvents from hidle)
    simp only [step, hpc, if_pos hle]
    exact ⟨_, timerStep_eq_some.mpr ⟨t, ht, rfl⟩⟩
  | resume =>
    simp only [step, if_pos ha.1]
    exact timerStep_succeeds h ha.2
  | suspend =>
    simp only [step, if_pos ha.1]
    exact timerStep_succeeds h ha.2
  | finishRound =>
    simp only [step, if_pos ha.1]
    exact timerStep_succeeds h ha.2

/-! ## No lost wake-up -/

/-- The step is not an await of the event. -/
def NotAwait (s : State) (a : Action) : Prop := ¬ (s.pc = .await ∧ a = .loop)

instance (s : State) : (a : Action) → Decidable (NotAwait s a)
  | .loop => decidable_of_iff (s.pc ≠ .await) (by simp [NotAwait])
  | .tick _ | .registerTimeout .. | .stop | .startLoop | .kernelTimeout | .resume | .suspend
  | .finishRound => isTrue (by simp [NotAwait])

/-- `set()` on a loop that is parked resumes it; elsewhere the event stays set. -/
lemma registerTimeout_cases (h : Inv s) {cont : Handle} {exp : Long} {level : Level}
    (hs : registerTimeout s cont exp level = some s') :
    (s.pc = .parked ∧ s'.pc = .outer ∧ s'.event = .notSet ∧ s'.wakes = s.wakes + 1 ∧
      s'.parks = s.parks) ∨
    (s.pc ≠ .parked ∧ s'.pc = s.pc ∧ s'.event = .set ∧ s'.wakes = s.wakes ∧
      s'.parks = s.parks) := by
  simp only [registerTimeout, Option.bind_eq_bind, Option.bind_eq_some_iff] at hs
  obtain ⟨t, -, hs⟩ := hs
  by_cases hpark : s.pc = .parked
  · simp only [h.waiting.mpr hpark, AutoResetEvent.signal, if_true, Option.some_inj] at hs
    subst hs
    exact .inl ⟨hpark, rfl, rfl, rfl, rfl⟩
  · simp only [h.signal_eq hpark, Bool.false_eq_true, if_false, Option.some_inj] at hs
    subst hs
    exact .inr ⟨hpark, rfl, rfl, rfl, rfl⟩

/-- Only an await resets the event, and only a registration resumes the loop from it. -/
lemma step_event_set (h : Inv s) (hset : s.event = .set) {a : Action} (hna : NotAwait s a)
    (hs : step s a = some s') : s'.event = .set ∧ s'.wakes = s.wakes ∧ s'.parks = s.parks := by
  cases step_cases hs with
  | registerTimeout hprog hs =>
    rcases registerTimeout_cases h hs with ⟨hpark, -⟩ | ⟨-, -, hevent⟩
    · have hwait := h.waiting.mpr hpark
      rw [hset] at hwait
      cases hwait
    · exact hevent
  | loop hs =>
    cases hs with
    | park hpc _ => exact absurd ⟨hpc, rfl⟩ hna
    | pass hpc _ => exact absurd ⟨hpc, rfl⟩ hna
    | _ => exact ⟨hset, rfl, rfl⟩
  | _ => exact ⟨hset, rfl, rfl⟩

/-- An await that finds the event set does not suspend the loop. -/
lemma loop_await_set (hpc : s.pc = .await) (hset : s.event = .set) :
    loop s = some { s with event := .notSet, pc := .outer } := by
  simp only [loop, hpc, hset, AutoResetEvent.awaitSuspend, Option.bind_eq_bind,
    Option.bind_some, Bool.false_eq_true, if_false]

/-- **The loop does not sleep on its event with work pending.**  In every reachable state: a
loop suspended on the event has an empty queue and an event that is not set, and it has been
suspended on it exactly once more often than it was resumed by it; a registration resumes a
suspended loop once, and elsewhere leaves the event set; an event that is set stays so until
the next await, which then does not suspend the loop; and every action that can be taken
succeeds. -/
theorem never_parked_with_work (clock : Long) (s : State)
    (h : machine.Reachable (start clock) s) :
    (s.pc = .parked → s.timer.queue.entries = some [] ∧
      Timer.hasMoreTimeouts s.timer = false ∧ s.event ≠ .set) ∧
    s.parks = s.wakes + (if s.pc = .parked then 1 else 0) ∧
    (∀ cont exp level s', step s (.registerTimeout cont exp level) = some s' →
      (s.pc = .parked → s'.pc = .outer ∧ s'.event = .notSet ∧ s'.wakes = s.wakes + 1) ∧
      (s.pc ≠ .parked → s'.pc = s.pc ∧ s'.event = .set ∧ s'.wakes = s.wakes)) ∧
    (s.event = .set → ∀ as t, machine.Each NotAwait s as → machine.run s as = some t →
      t.event = .set ∧ t.wakes = s.wakes ∧ t.parks = s.parks ∧ t.pc ≠ .parked ∧
      (t.pc = .await → step t .loop = some { t with event := .notSet, pc := .outer })) ∧
    ∀ a, Enabled s a → ∃ s', step s a = some s' := by
  have hinv := inv_of_reachable h
  refine ⟨fun hpc => ?_, hinv.count, fun cont exp level s' hs => ?_, fun hset as t heach hrun => ?_,
    fun a ha => step_succeeds hinv ha⟩
  · have hempty := hinv.empty (.inr hpc)
    have hwait := hinv.waiting.mpr hpc
    obtain ⟨cells, loose, htracks⟩ := hinv.tracks
    have hsettled := htracks.settled (hinv.idle (by simp [hpc]))
    obtain rfl := (Timer.isEmpty_iff hsettled).mp hempty
    exact ⟨Skiplist.entries_spec hsettled.rep, by simp [Timer.hasMoreTimeouts, hempty],
      by simp [hwait]⟩
  · cases step_cases hs with
    | registerTimeout hprog hs =>
      rcases registerTimeout_cases hinv hs with ⟨hpark, hpc, hev, hw, -⟩ | ⟨hpark, hpc, hev, hw, -⟩
      · exact ⟨fun _ => ⟨hpc, hev, hw⟩, fun hne => absurd hpark hne⟩
      · exact ⟨fun hp => absurd hp hpark, fun _ => ⟨hpc, hev, hw⟩⟩
  · obtain ⟨hinvt, hev, hw, hp⟩ := machine.run_invariant_of_each
      (P := fun t => Inv t ∧ t.event = .set ∧ t.wakes = s.wakes ∧ t.parks = s.parks)
      (fun u a u' ⟨hu, hue, huw, hup⟩ hna hs => by
        obtain ⟨he', hw', hp'⟩ := step_event_set hu hue hna hs
        exact ⟨step_inv hu hs, he', hw'.trans huw, hp'.trans hup⟩)
      ⟨hinv, hset, rfl, rfl⟩ heach hrun
    refine ⟨hev, hw, hp, fun hpark => ?_, fun hpc => loop_await_set hpc hev⟩
    have hwait := hinvt.waiting.mpr hpark
    rw [hev] at hwait
    cases hwait

/-- A loop that starts without timeouts is parked, and the first registration resumes it. -/
theorem never_parked_with_work_first_registration :
    ∃ s s', machine.run (start ⟨0, by decide⟩) [.startLoop, .loop, .loop, .loop] = some s ∧
      s.timer.queue.entries = some [] ∧
      step s (.registerTimeout 7 ⟨50, by decide⟩ ⟨1, by decide⟩) = some s' ∧ s'.pc = .outer ∧
      s'.wakes = s.wakes + 1 := by
  have hrun : (machine.run (start ⟨0, by decide⟩) [.startLoop, .loop, .loop, .loop]).map
      (fun s => (s.pc, InProgram s)) = some (.parked, true) := by decide +kernel
  obtain ⟨s, hs, heq⟩ := Option.map_eq_some_iff.mp hrun
  simp only [Prod.mk.injEq] at heq
  obtain ⟨hparked, -, hreg, -, hsucc⟩ := never_parked_with_work _ s ⟨_, hs⟩
  obtain ⟨s', hs'⟩ := hsucc (.registerTimeout 7 ⟨50, by decide⟩ ⟨1, by decide⟩) heq.2
  obtain ⟨hpc, -, hwakes⟩ := (hreg _ _ _ s' hs').1 heq.1
  exact ⟨s, s', hs, (hparked heq.1).1, hs', hpc, hwakes⟩

end TimerLoop

end Coring
