import Coring.IoContext.TimerLoop

/-!
# When the timer loop arms its timeout in time

While the loop sleeps it should sleep no longer than until the earliest wakeup point in the
queue, or not at all if that has passed: `NotLate`.  The kernel timeout is computed from the
earliest wakeup point when it is armed and is not touched again, although `register_timeout`
sets the event: the event is only looked at once the timeout has completed and the queue has
run empty.  A registration made while the loop sleeps therefore keeps the property only if its
own wakeup point is not before the time the loop sleeps to (`Timely`).

There is a second way to be late.  The distance from the clock to a wakeup point is computed
in 64 bits, and a wakeup point more than 2⁶³ microseconds in the past, as made by a timeout
near the least `long`, comes out in the far future.
-/

namespace Coring.TimerLoop

variable {s s' : State}

/-- The earliest wakeup point in the queue. -/
def earliest (s : State) : Option ℤ :=
  (s.timer.queue.entries.getD []).head?.map fun e => e.1.1

/-- A loop that sleeps wakes up by the wakeup point `w`, if there is one, or at once. -/
def Pc.NotLate (w : Option ℤ) : Pc → Prop
  | .sleeping armed expires => ∀ x ∈ w, micros expires ≤ max (micros armed.1) x
  | _ => True

instance (w : Option ℤ) : (pc : Pc) → Decidable (pc.NotLate w)
  | .sleeping armed expires =>
      inferInstanceAs (Decidable (∀ x ∈ w, micros expires ≤ max (micros armed.1) x))
  | .notStarted | .outer | .inner | .handling | .await | .parked | .finished =>
      inferInstanceAs (Decidable True)

/-- A loop that sleeps wakes up by the earliest wakeup point in the queue. -/
def NotLate (s : State) : Prop := s.pc.NotLate (earliest s)

instance (s : State) : Decidable (NotLate s) := inferInstanceAs (Decidable (s.pc.NotLate _))

/-- The distance to the earliest wakeup point does not underflow when the loop arms. -/
def NoUnderflow (s : State) : Action → Prop
  | .loop => s.pc = .inner → ∀ w ∈ earliest s, -2 ^ 63 ≤ w - (stamp s.timer.clock).1
  | _ => True

/-- A registration made while the loop sleeps does not ask for an earlier time than the one the
loop sleeps to. -/
def NotEarlier (s : State) : Action → Prop
  | .registerTimeout _ exp _ =>
      s.pc.NotLate (some (Long.wrap ((stamp s.timer.clock).1 + exp.1)).1)
  | _ => True

/-- The condition on a step. -/
def Timely (s : State) (a : Action) : Prop := NotEarlier s a ∧ NoUnderflow s a

instance (s : State) : (a : Action) → Decidable (Timely s a)
  | .registerTimeout .. => inferInstanceAs (Decidable (Pc.NotLate _ _ ∧ True))
  | .loop => inferInstanceAs (Decidable
      (True ∧ (s.pc = .inner → ∀ w ∈ earliest s, -2 ^ 63 ≤ w - (stamp s.timer.clock).1)))
  | .tick _ | .stop | .startLoop | .kernelTimeout | .resume | .suspend | .finishRound =>
      inferInstanceAs (Decidable (True ∧ True))

/-! ## The earliest wakeup point -/

lemma earliest_eq {cells : List Timer.QueueCell} (h : Skiplist.Settled s.timer.queue cells) :
    earliest s = cells.head?.map fun c => c.key.1 := by
  rw [earliest, Skiplist.entries_spec h.rep, Option.getD_some, Skiplist.contents, List.head?_map,
    Option.map_map]
  rfl

lemma Inv.settled (h : Inv s) (hpc : s.pc ≠ .handling) :
    ∃ cells, Skiplist.Settled s.timer.queue cells := by
  obtain ⟨cells, loose, htracks⟩ := h.tracks
  exact ⟨cells, htracks.settled (h.idle hpc)⟩

/-- After an insertion the first key is the new one or the one before, whichever is less. -/
lemma head_inserted (cells : List Timer.QueueCell) (c : Timer.QueueCell) :
    ∃ d, (Skiplist.inserted cells c).head? = some d ∧ d.key ≤ c.key ∧
      (d = c ∨ cells.head? = some d) := by
  have hsplit := Skiplist.below_append_notBelow c.key cells
  cases hb : Skiplist.below c.key cells with
  | nil =>
    refine ⟨c, ?_, le_refl _, .inl rfl⟩
    rw [Skiplist.inserted, hb]
    rfl
  | cons d l =>
    have hd : d.key < c.key := Skiplist.lt_of_mem_below (hb ▸ List.mem_cons_self ..)
    refine ⟨d, ?_, hd.le, .inr ?_⟩
    · rw [Skiplist.inserted, hb]
      rfl
    · rw [← hsplit, hb]
      rfl

/-- A registration while the loop sleeps keeps it in time exactly when it does not ask for an
earlier time. -/
lemma notLate_register (h : Inv s) {armed : Long} {expires : ℤ}
    (hpc : s.pc = .sleeping armed expires) (hlate : NotLate s) {cont : Handle} {exp : Long}
    {level : Level} (hs : registerTimeout s cont exp level = some s') :
    NotLate s' ↔ NotEarlier s (.registerTimeout cont exp level) := by
  obtain ⟨cells, hset⟩ := h.settled (by simp [hpc])
  obtain ⟨t, ht, hset'⟩ := Timer.addEvent_settled hset cont exp level
  have hpc' : s'.pc = .sleeping armed expires ∧ s'.timer = t := by
    simp only [registerTimeout, ht, h.signal_eq (by simp [hpc]), Option.bind_eq_bind,
      Option.bind_some, Bool.false_eq_true, if_false, Option.some_inj] at hs
    subst hs
    exact ⟨hpc, rfl⟩
  obtain ⟨d, hd, hle, hcase⟩ := head_inserted cells ⟨s.timer.queue.unused,
    Long.wrap ((stamp s.timer.clock).1 + exp.1), ⟨cont, s.timer.made.length⟩, level.1⟩
  have hearly : earliest s' = some d.key.1 := by
    rw [earliest_eq (s := s') (by rw [hpc'.2]; exact hset'), hd]
    rfl
  rw [NotLate, hpc'.1, hearly, NotEarlier, hpc]
  simp only [Pc.NotLate, Option.mem_some_iff, forall_eq']
  constructor
  · intro hin
    exact hin.trans (max_le_max_left _ hle)
  · intro hin
    rcases hcase with rfl | hold
    · exact hin
    · rw [NotLate, hpc, earliest_eq hset, hold] at hlate
      exact hlate _ rfl

/-- Arming puts the expiration at the earliest wakeup point, or earlier. -/
lemma notLate_arm (h : Inv s) (hpc : s.pc = .inner) (hunder : NoUnderflow s .loop)
    (hs : loop s = some s') : NotLate s' := by
  obtain ⟨cells, hset⟩ := h.settled (by simp [hpc])
  simp only [loop, hpc] at hs
  split at hs
  · next hmore =>
    cases cells with
    | nil =>
      rw [Timer.hasMoreTimeouts, (Timer.isEmpty_iff hset).mpr rfl] at hmore
      cases hmore
    | cons c cells =>
      rw [Timer.getNextExpiration_spec hset.rep] at hs
      simp only [Option.bind_eq_bind, Option.bind_some, Option.some_inj] at hs
      subst hs
      have hlow := hunder hpc c.key.1 (by rw [earliest_eq hset]; rfl)
      set clock := s.timer.clock with hclock
      set d := max (Long.wrap 0) (Long.wrap (c.key.1 - (stamp clock).1)) with hd
      have hzero : (Long.wrap 0).1 = 0 := by decide
      have hd0 : 0 ≤ d.1 := by
        have : Long.wrap 0 ≤ d := le_max_left _ _
        exact hzero ▸ this
      have hdle : d.1 ≤ max 0 (c.key.1 - (stamp clock).1) := by
        rcases max_choice (Long.wrap 0) (Long.wrap (c.key.1 - (stamp clock).1)) with hc | hc
        · rw [hd, hc, hzero]
          exact le_max_left _ _
        · rw [hd, hc]
          exact (Long.wrap_le hlow).trans (le_max_right _ _)
      have hexp := micros_mono (expiry_makeTimespec_le hd0 clock)
      have hadd := micros_add_le clock.1 d.1 hd0
      have hstamp : (stamp clock).1 = micros clock.1 := rfl
      have hearly : earliest { s with
          pc := .sleeping clock ((makeTimespec d).expiry clock) } = some c.key.1 :=
        earliest_eq hset
      rw [NotLate, hearly]
      simp only [Pc.NotLate, Option.mem_some_iff, forall_eq']
      omega
  · rw [← Option.some_inj.mp hs]
    trivial

/-- Every step but a registration and the arming leaves a sleeping loop and the queue alone, or
does not lead to sleep. -/
lemma step_sleeping {a : Action} (hreg : ∀ cont exp level, a ≠ .registerTimeout cont exp level)
    (harm : ¬ (a = .loop ∧ s.pc = .inner)) (hs : step s a = some s') :
    (∀ armed expires, s'.pc ≠ .sleeping armed expires) ∨
    (s'.pc = s.pc ∧ s'.timer.queue = s.timer.queue) := by
  cases step_cases hs with
  | registerTimeout => exact absurd rfl (hreg _ _ _)
  | tick ht => exact .inr ⟨rfl, (Timer.tick_frame ht).2⟩
  | stop => exact .inr ⟨rfl, rfl⟩
  | startLoop => exact .inl (by simp)
  | loop hs =>
    cases hs with
    | test hpc =>
      refine .inl fun armed expires => ?_
      cases s.stopped <;> simp
    | arm hpc => exact absurd ⟨rfl, hpc⟩ harm
    | drained hpc => exact absurd ⟨rfl, hpc⟩ harm
    | _ => exact .inl (by simp)
  | kernelTimeout => exact .inl (by simp)
  | resume hpc => exact .inl (by simp [hpc])
  | suspend hpc => exact .inl (by simp [hpc])
  | finishRound hpc => exact .inl (by simp [hpc])

lemma Pc.notLate_of_not_sleeping {pc : Pc} (h : ∀ armed expires, pc ≠ .sleeping armed expires)
    (w : Option ℤ) : pc.NotLate w := by
  cases pc with
  | sleeping armed expires => exact absurd rfl (h armed expires)
  | _ => trivial

/-- A step keeps the loop in time exactly when it is not an earlier registration. -/
lemma step_notLate_iff {a : Action} (h : Inv s) (hunder : NoUnderflow s a) (hlate : NotLate s)
    (hs : step s a = some s') : NotLate s' ↔ NotEarlier s a := by
  by_cases hreg : ∃ cont exp level, a = .registerTimeout cont exp level
  · obtain ⟨cont, exp, level, rfl⟩ := hreg
    obtain ⟨-, hs⟩ := Option.ite_none_right_eq_some.mp hs
    by_cases hsl : ∃ armed expires, s.pc = .sleeping armed expires
    · obtain ⟨armed, expires, hpc⟩ := hsl
      exact notLate_register h hpc hlate hs
    · push Not at hsl
      refine iff_of_true (Pc.notLate_of_not_sleeping (fun armed expires => ?_) _)
        (Pc.notLate_of_not_sleeping hsl _)
      rcases registerTimeout_cases h hs with ⟨-, hpc, -⟩ | ⟨-, hpc, -⟩
      · simp [hpc]
      · rw [hpc]
        exact hsl armed expires
  · push Not at hreg
    have hcond : NotEarlier s a := by
      cases a with
      | registerTimeout cont exp level => exact absurd rfl (hreg cont exp level)
      | _ => trivial
    refine iff_of_true ?_ hcond
    by_cases harm : a = .loop ∧ s.pc = .inner
    · obtain ⟨rfl, hpc⟩ := harm
      exact notLate_arm h hpc hunder hs
    · rcases step_sleeping hreg harm hs with hno | ⟨hpc, hq⟩
      · exact Pc.notLate_of_not_sleeping hno _
      · rw [NotLate, earliest, hpc, hq]
        exact hlate

/-- **When the loop is never armed late.**  In a run in which no registration made while the
loop sleeps asks for an earlier time, and no distance to a wakeup point underflows, the loop
sleeps at every moment at most to the earliest wakeup point in the queue.  In a run without
such an underflow it does so only then. -/
theorem notLate_iff_timely (clock : Long) (as : List Action) :
    (machine.Each Timely (start clock) as → machine.Always NotLate (start clock) as) ∧
    (machine.Each NoUnderflow (start clock) as → machine.Always NotLate (start clock) as →
      machine.Each Timely (start clock) as) := by
  have hiff : machine.Each NoUnderflow (start clock) as →
      (machine.Always NotLate (start clock) as ↔ machine.Each NotEarlier (start clock) as) :=
    machine.always_iff_each (fun _ _ _ => step_inv)
      (fun _ _ _ h hunder hlate hs => step_notLate_iff h hunder hlate hs) as (start clock)
      (inv_start clock) trivial
  constructor
  · intro htimely
    obtain ⟨hearlier, hunder⟩ := machine.each_and.mp htimely
    exact (hiff hunder).mpr hearlier
  · intro hunder hlate
    exact machine.each_and.mpr ⟨(hiff hunder).mp hlate, hunder⟩

/-- A timeout of 50 µs is armed, and one of 100 µs is registered while the loop sleeps. -/
theorem notLate_iff_timely_later_registration :
    machine.Always NotLate (start ⟨0, by decide⟩)
      [.registerTimeout 7 ⟨50, by decide⟩ ⟨1, by decide⟩, .startLoop, .loop, .loop,
        .registerTimeout 8 ⟨100, by decide⟩ ⟨1, by decide⟩, .tick 50000, .kernelTimeout] :=
  (notLate_iff_timely _ _).1 (by decide +kernel)

/-- A timeout of 1000 µs is armed, and one of 10 µs is registered while the loop sleeps: it goes
on sleeping to the later one. -/
theorem late_after_earlier_registration :
    ¬ machine.Always NotLate (start ⟨0, by decide⟩)
      [.registerTimeout 7 ⟨1000, by decide⟩ ⟨1, by decide⟩, .startLoop, .loop, .loop,
        .registerTimeout 8 ⟨10, by decide⟩ ⟨1, by decide⟩] := by
  decide +kernel

end Coring.TimerLoop
