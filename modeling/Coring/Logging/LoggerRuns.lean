import Coring.Logging.LogRings
import Coring.Logging.TimeBuffer
import Mathlib.Data.Finset.Card
import Mathlib.Data.List.Nodup

/-!
# Runs of the logger with its vector

Whatever a run of the logger with the mutex and the vector of the rings does, it is a run of the
logger over its rings, and so one of the logger over queues (`runs_refine_queues`).  With no more
than four threads the vector never moves, and the condition of `sound_iff_undisturbed` is met
(`sound_of_four_threads`).

`stop` takes the mutex, and so does `poll`, so a thread that stands still in its registration keeps
both waiting.  Once it has given the mutex back, `stop` returns without a step of any thread
(`stop_returns_past_registration`), unless `poll` refers to a pointer that is not there.
-/

namespace Coring.Logging.LogRings

variable {τ : Type} {D : Datetime τ} {d₀ : D.State} {s s' : State D} {size t : ℕ}

/-! ## Refinement -/

/-- **A run of the logger is one of the logger over queues**, up to a step that has no defined
effect.  An entry is in the queue of its thread from the store of the write index, and `batch_out`
takes all out when it loads it; and the slot that a thread is about to write is not the one that the
logging thread is about to read. -/
theorem runs_refine_queues (size : ℕ) (D : Datetime τ) (d₀ : D.State) (s : State D)
    (h : machine.Reachable (start size D d₀) s) :
    LoggerState.machine.Reachable (LoggerState.start D d₀) (RingLogger.view s.inner) ∧
    ∀ t p q, (s.inner.rings t).nextWrite = some p → (s.inner.rings t).nextRead = some q →
      p ≠ q := by
  obtain ⟨as, hrun⟩ := h
  obtain ⟨hview, -, hslots⟩ := RingLogger.rings_write_once size D d₀ s.inner (run_inv hrun).inner
  exact ⟨hview, hslots⟩

/-- An entry goes into a ring while `batch_out` copies the one before it. -/
def duringBatchOut (e₁ e₂ : LogRingEntry τ) : List (Act τ) :=
  registration 0 0 e₁ ++
  [.inner (.emplace 0), .inner (.loadRead 0), .inner (.construct 0), .inner (.shared .run),
    .inner (.publish 0), .inner (.shared (.thread 0 .notifyOne)), .inner (.shared .logger),
    .inner (.shared .logger), .ring, .inner .batchOut, .inner .loadWrite,
    .inner (.shared (.thread 0 (.append e₂))), .inner (.emplace 0), .inner (.loadRead 0),
    .inner .copy, .inner (.construct 0), .inner (.publish 0),
    .inner (.shared (.thread 0 .notifyOne)), .inner .release, .inner (.shared .callStop),
    .inner (.shared .requestStop), .inner (.shared .forceFlush)] ++
  List.replicate 11 (.inner (.shared .logger)) ++
  [.ring, .inner .batchOut, .inner .loadWrite, .inner .copy, .inner .release] ++
  List.replicate 8 (.inner (.shared .logger)) ++ [.inner (.shared .join)]

theorem runs_refine_queues_duringBatchOut :
    ∃ s, machine.run (start 8 LoggerState.numbers (0 : ℕ)) (duringBatchOut
        (LoggerState.entryAt 1) (LoggerState.entryAt 2)) = some s ∧
      s.inner.base.stop = .returned ∧
      s.inner.base.before 0 = [LoggerState.entryAt 1, LoggerState.entryAt 2] ∧
      LoggerState.machine.Reachable (LoggerState.start LoggerState.numbers (0 : ℕ))
        (RingLogger.view s.inner) ∧
      ∀ t p q, (s.inner.rings t).nextWrite = some p → (s.inner.rings t).nextRead = some q →
        p ≠ q := by
  have hrun : (machine.run (start 8 LoggerState.numbers (0 : ℕ)) (duringBatchOut
      (LoggerState.entryAt 1) (LoggerState.entryAt 2))).map
      (fun s => (s.inner.base.stop, s.inner.base.before 0))
      = some (.returned, [LoggerState.entryAt 1, LoggerState.entryAt 2]) := by decide +kernel
  obtain ⟨s, hs, heq⟩ := Option.map_eq_some_iff.mp hrun
  simp only [Prod.mk.injEq] at heq
  exact ⟨s, hs, heq.1, heq.2, runs_refine_queues 8 LoggerState.numbers (0 : ℕ) s ⟨_, hs⟩⟩

/-! ## Four threads -/

/-- Each thread registers its ring once, and all of them are in `T`. -/
structure RegistersOnce (T : Finset ℕ) (b : LoggerState D) : Prop where
  nodup : b.logRings.Nodup
  mem (t : ℕ) : t ∈ b.logRings → t ∈ T
  fresh (t : ℕ) : registering (b.threads t) → t ∈ T ∧ t ∉ b.logRings

lemma RegistersOnce.of_frame {T : Finset ℕ} {b b' : LoggerState D} (h : RegistersOnce T b)
    (hrings : b'.logRings = b.logRings)
    (hthreads : ∀ t, registering (b'.threads t) → registering (b.threads t)) :
    RegistersOnce T b' :=
  ⟨hrings ▸ h.nodup, hrings ▸ h.mem, fun t ht => hrings ▸ h.fresh t (hthreads t ht)⟩

/-- A step of `append`. -/
lemma RegistersOnce.thread {T : Finset ℕ} {b b' : LoggerState D} {a : LoggerState.ThreadAct τ}
    (h : RegistersOnce T b) (ht : t ∈ T) (hs : b.threadStep t a = some b') :
    RegistersOnce T b' := by
  have hquiet : ∀ pc, ¬ registering pc → ∀ u, registering (Function.update b.threads t pc u) →
      registering (b.threads u) := fun pc hpc u hu => by
    by_cases htu : u = t
    · rw [htu, Function.update_self] at hu
      exact absurd hu hpc
    · rwa [Function.update_of_ne htu] at hu
  cases a with
  | append e =>
    simp only [LoggerState.threadStep] at hs
    split at hs
    · cases hs
      refine ⟨h.nodup, h.mem, fun u hu => ?_⟩
      by_cases htu : u = t
      · subst htu
        refine ⟨ht, fun hmem => ?_⟩
        simp only [LoggerState.setThread, Function.update_self] at hu
        rw [if_pos (show u ∈ b.logRings from hmem)] at hu
        cases hu
      · simp only [LoggerState.setThread, Function.update_of_ne htu] at hu
        exact h.fresh u hu
    · cases hs
  | register =>
    simp only [LoggerState.threadStep] at hs
    split at hs
    · next e hpc =>
      cases hs
      have hnot : t ∉ b.logRings := (h.fresh t (by rw [hpc]; trivial)).2
      refine ⟨List.nodup_append.mpr ⟨h.nodup, List.nodup_singleton t, fun u hu v hv heq => ?_⟩,
        fun u hu => ?_, fun u hu => ?_⟩
      · rw [List.mem_singleton.mp hv] at heq
        exact hnot (heq ▸ hu)
      · obtain hu | hu := List.mem_append.mp hu
        · exact h.mem u hu
        · rwa [List.mem_singleton.mp hu]
      · have hne : u ≠ t := fun htu => by
          rw [htu] at hu
          simp only [LoggerState.setThread, Function.update_self] at hu
          cases hu
        simp only [LoggerState.setThread, Function.update_of_ne hne] at hu
        refine ⟨(h.fresh u hu).1, fun hmem => ?_⟩
        obtain hmem | hmem := List.mem_append.mp hmem
        · exact (h.fresh u hu).2 hmem
        · exact hne (List.mem_singleton.mp hmem)
    · cases hs
  | emplaceBack =>
    simp only [LoggerState.threadStep] at hs
    split at hs
    · obtain ⟨-, hs⟩ := Option.ite_none_right_eq_some.mp hs
      cases hs
      exact h.of_frame rfl (hquiet _ id)
    · cases hs
  | _ =>
    simp only [LoggerState.threadStep] at hs
    split at hs
    · cases hs
      exact h.of_frame rfl (hquiet _ id)
    · cases hs

lemma registering_of_register {r r' : RingLogger.State D}
    (hs : RingLogger.step r (.shared (.thread t .register)) = some r') :
    registering (r.base.threads t) := by
  simp only [RingLogger.step, RingLogger.accessesRing, Bool.false_eq_true, if_false,
    LoggerState.step, LoggerState.threadStep] at hs
  split at hs
  · next e hpc =>
    rw [hpc]
    trivial
  · cases hs

/-- A step of the logger over its rings. -/
lemma RegistersOnce.step {T : Finset ℕ} {r r' : RingLogger.State D} {a : RingLogger.Act τ}
    (h : RegistersOnce T r.base) (ha : ∀ t, a.thread = some t → t ∈ T)
    (hs : RingLogger.step r a = some r') : RegistersOnce T r'.base := by
  by_cases hshared : ∃ b, a = .shared b
  · obtain ⟨b, rfl⟩ := hshared
    obtain ⟨-, hs⟩ := Option.ite_none_left_eq_some.mp hs
    obtain ⟨b', hb', rfl⟩ := Option.map_eq_some_iff.mp hs
    cases b with
    | thread u b => exact h.thread (ha u rfl) hb'
    | logger =>
      obtain ⟨hthreads, hrings, -⟩ := LoggerState.loggerStep_frame hb'
      exact h.of_frame hrings fun t ht => hthreads ▸ ht
    | _ =>
      obtain ⟨-, hb'⟩ := Option.ite_none_right_eq_some.mp hb'
      cases hb'
      exact h.of_frame rfl fun _ => id
  · obtain ⟨hrings, u, r', -, ⟨b, -, -, -, hthreads⟩ | ⟨b, w, -, -, -, hthreads, -⟩⟩ :=
      RingLogger.step_ring hs fun b hb => hshared ⟨b, hb⟩
    · refine h.of_frame hrings fun t ht => ?_
      obtain hthreads | ⟨e, hthreads⟩ := hthreads
      · exact hthreads ▸ ht
      · rw [hthreads] at ht
        by_cases htu : t = u
        · rw [htu, Function.update_self] at ht
          cases ht
        · rwa [Function.update_of_ne htu] at ht
    · exact h.of_frame hrings fun t ht => hthreads ▸ ht

/-- Nothing has been moved. -/
structure Unmoved (size : ℕ) (d₀ : D.State) (T : Finset ℕ) (s : State D) : Prop where
  inv : Inv size d₀ s
  once : RegistersOnce T s.inner.base
  moved : s.moved = 0
  capacity : s.capacity = 4

/-- A thread that finds the vector full would be the fifth. -/
lemma Unmoved.not_full {T : Finset ℕ} (h : Unmoved size d₀ T s) (hT : T.card ≤ 4)
    (ht : registering (s.inner.base.threads t)) : s.size < s.capacity := by
  obtain ⟨hmem, hnot⟩ := h.once.fresh t ht
  have hnodup : (t :: s.inner.base.logRings).Nodup := List.nodup_cons.mpr ⟨hnot, h.once.nodup⟩
  have hsub : (t :: s.inner.base.logRings).toFinset ⊆ T := fun u hu => by
    obtain rfl | hu := List.mem_cons.mp (List.mem_toFinset.mp hu)
    · exact hmem
    · exact h.once.mem u hu
  have hcard := Finset.card_le_card hsub
  rw [List.toFinset_card_of_nodup hnodup, List.length_cons] at hcard
  have hcapacity := h.capacity
  change s.inner.base.logRings.length < s.capacity
  omega

lemma Unmoved.step {T : Finset ℕ} {a : Act τ} (h : Unmoved size d₀ T s) (hT : T.card ≤ 4)
    (ha : ∀ t, a.thread = some t → t ∈ T) (hs : step s a = some s') :
    Undisturbed s a ∧ Unmoved size d₀ T s' := by
  have hinv := step_inv h.inv hs
  cases step_cases hs with
  | lock => exact ⟨trivial, hinv, h.once, h.moved, h.capacity⟩
  | @move t e hpc _ hfull =>
    have hroom := h.not_full hT (t := t) (by rw [hpc]; trivial)
    exact absurd hfull (Nat.ne_of_lt hroom)
  | unlock => exact ⟨trivial, hinv, h.once, h.moved, h.capacity⟩
  | ring => exact ⟨fun w _ => h.moved ▸ Nat.zero_le _, hinv, h.once, h.moved, h.capacity⟩
  | @inner a inner hp hinner =>
    have hafter : (s.after a inner).inner = inner ∧ (s.after a inner).moved = s.moved ∧
        (s.after a inner).capacity = s.capacity := by
      unfold State.after
      split
      · rw [if_pos (h.not_full hT (registering_of_register hinner))]
        exact ⟨rfl, rfl, rfl⟩
      · exact ⟨rfl, rfl, rfl⟩
      · exact ⟨rfl, rfl, rfl⟩
    obtain ⟨hin, hmoved, hcapacity⟩ := hafter
    refine ⟨trivial, hinv, ?_, hmoved.trans h.moved, hcapacity.trans h.capacity⟩
    rw [hin]
    exact h.once.step ha hinner

/-- **With four threads nothing can go wrong**: the room that the vector has from the start is
enough. -/
theorem sound_of_four_threads (size : ℕ) (D : Datetime τ) (d₀ : D.State) (T : Finset ℕ)
    (hT : T.card ≤ 4) (as : List (Act τ)) (has : ∀ a ∈ as, ∀ t, a.thread = some t → t ∈ T) :
    machine.Always (Sound d₀) (start size D d₀) as := by
  have hstart : Unmoved size d₀ T (start size D d₀) := {
    inv := inv_start size d₀
    once := ⟨List.nodup_nil, fun t ht => absurd ht List.not_mem_nil, fun t ht => by cases ht⟩
    moved := rfl
    capacity := rfl }
  exact (sound_iff_undisturbed size D d₀ as).mpr
    (machine.each_of_invariant (A := fun a => ∀ t, a.thread = some t → t ∈ T)
      (fun s a s' h ha hs => h.step hT ha hs) hstart has)

/-- The run above is one of a single thread. -/
theorem sound_of_four_threads_duringBatchOut :
    machine.Always (Sound (0 : ℕ)) (start 8 LoggerState.numbers (0 : ℕ))
      (duringBatchOut (LoggerState.entryAt 1) (LoggerState.entryAt 2)) := by
  refine sound_of_four_threads 8 LoggerState.numbers (0 : ℕ) {0} (by decide) _ fun a ha t ht => ?_
  have hone : ∀ a ∈ duringBatchOut (LoggerState.entryAt 1) (LoggerState.entryAt 2),
      a.thread = none ∨ a.thread = some 0 := by
    simp [duringBatchOut, registration, Act.thread, RingLogger.Act.thread]
  obtain hnone | hzero := hone a ha
  · cases hnone.symm.trans ht
  · cases hzero.symm.trans ht
    exact Finset.mem_singleton_self 0

/-! ## `stop` returns -/

/-- A step of a registration, with the mutex. -/
def Act.Registers : Act τ → Prop
  | .move _ | .inner (.shared (.thread _ .register)) | .inner (.shared (.thread _ .signal))
  | .unlock _ => True
  | _ => False

@[simp] lemma after_inner (a : RingLogger.Act τ) (inner : RingLogger.State D) :
    (s.after a inner).inner = inner := by
  unfold State.after
  split
  · split <;> rfl
  · rfl
  · rfl

@[simp] lemma after_mutex (a : RingLogger.Act τ) (inner : RingLogger.State D) :
    (s.after a inner).mutex = s.mutex := by
  unfold State.after
  split
  · split <;> rfl
  · rfl
  · rfl

lemma after_ring {a : RingLogger.Act τ} (ha : a ≠ .batchOut) (inner : RingLogger.State D) :
    (s.after a inner).ring = s.ring := by
  unfold State.after
  split
  · split <;> rfl
  · exact absurd rfl ha
  · rfl

lemma step_of_permits {a : RingLogger.Act τ} {inner : RingLogger.State D}
    (hp : s.permits a = true) (hs : RingLogger.step s.inner a = some inner) :
    step s (.inner a) = some (s.after a inner) := by
  simp only [step, hp, if_true, hs, Option.map_some]

/-- Thread `t` gets to give the mutex back. -/
def GivesBack (s : State D) (t : ℕ) : Prop :=
  ∃ as s', (∀ a ∈ as, a.thread = some t ∧ a.Registers) ∧ machine.run s as = some s' ∧
    s'.mutex = none ∧ s'.ring = s.ring ∧ s'.inner.base.stop = s.inner.base.stop

lemma GivesBack.cons {a : Act τ} (ha : a.thread = some t ∧ a.Registers) (hs : step s a = some s')
    (hring : s'.ring = s.ring) (hstop : s'.inner.base.stop = s.inner.base.stop)
    (h : GivesBack s' t) : GivesBack s t := by
  obtain ⟨as, s'', has, hrun, hmutex, hring', hstop'⟩ := h
  refine ⟨a :: as, s'', fun b hb => ?_, machine.run_cons_eq_some.mpr ⟨s', hs, hrun⟩, hmutex,
    hring'.trans hring, hstop'.trans hstop⟩
  obtain rfl | hb := List.mem_cons.mp hb
  · exact ha
  · exact has b hb

/-- When `append` leaves the block of the guard, -/
lemma givesBack_unlock {e : LogRingEntry τ} (hmutex : s.mutex = some t)
    (hpc : s.inner.base.threads t = .emplaceBack e) : GivesBack s t := by
  refine ⟨[.unlock t], { s with mutex := none }, fun a ha => ?_, ?_, rfl, rfl, rfl⟩
  · rw [List.mem_singleton.mp ha]
    exact ⟨rfl, trivial⟩
  · simp [machine, Machine.run, step, hpc, hmutex]

/-- has set the flag before, -/
lemma givesBack_signal {e : LogRingEntry τ} (hmutex : s.mutex = some t)
    (hpc : s.inner.base.threads t = .signal e) : GivesBack s t := by
  obtain ⟨inner, hs, hstop, hpc'⟩ : ∃ inner,
      RingLogger.step s.inner (.shared (.thread t .signal)) = some inner ∧
      inner.base.stop = s.inner.base.stop ∧ inner.base.threads t = .emplaceBack e := by
    simp only [RingLogger.step, RingLogger.accessesRing, Bool.false_eq_true, if_false,
      LoggerState.step, LoggerState.threadStep, hpc, Option.map_some]
    exact ⟨_, rfl, rfl, Function.update_self ..⟩
  have hp : s.permits (.shared (.thread t .signal)) = true := decide_eq_true hmutex
  exact .cons (a := .inner (.shared (.thread t .signal))) ⟨rfl, trivial⟩ (step_of_permits hp hs)
    (after_ring (fun ha => by cases ha) _) (by rw [after_inner, hstop])
    (givesBack_unlock (by rw [after_mutex, hmutex]) (by rw [after_inner, hpc']))

/-- and has added the ring before, with all pointers moved if there was no room. -/
lemma givesBack_register {e : LogRingEntry τ} (hmutex : s.mutex = some t)
    (hpc : s.inner.base.threads t = .register e)
    (hroom : s.size < s.capacity ∨ s.moved = s.capacity) : GivesBack s t := by
  obtain ⟨inner, hs, hstop, hpc'⟩ : ∃ inner,
      RingLogger.step s.inner (.shared (.thread t .register)) = some inner ∧
      inner.base.stop = s.inner.base.stop ∧ inner.base.threads t = .signal e := by
    simp only [RingLogger.step, RingLogger.accessesRing, Bool.false_eq_true, if_false,
      LoggerState.step, LoggerState.threadStep, hpc, Option.map_some]
    exact ⟨_, rfl, rfl, Function.update_self ..⟩
  have hp : s.permits (.shared (.thread t .register)) = true := by
    simp only [State.permits, hmutex, decide_true, Bool.true_and, Bool.or_eq_true,
      decide_eq_true_eq]
    exact hroom
  exact .cons (a := .inner (.shared (.thread t .register))) ⟨rfl, trivial⟩ (step_of_permits hp hs)
    (after_ring (fun ha => by cases ha) _) (by rw [after_inner, hstop])
    (givesBack_signal (by rw [after_mutex, hmutex]) (by rw [after_inner, hpc']))

lemma givesBack_move {e : LogRingEntry τ} (hmutex : s.mutex = some t)
    (hpc : s.inner.base.threads t = .register e) (hfull : s.size = s.capacity)
    (hle : s.moved ≤ s.capacity) : GivesBack s t := by
  induction hn : s.capacity - s.moved generalizing s with
  | zero => exact givesBack_register hmutex hpc (.inr (by omega))
  | succ n ih =>
    have hlt : s.moved < s.capacity := by omega
    have hs : step s (.move t) = some { s with moved := s.moved + 1 } := by
      simp [step, hpc, hmutex, hfull, hlt]
    refine .cons (a := .move t) ⟨rfl, trivial⟩ hs rfl rfl (ih hmutex hpc hfull hlt ?_)
    change s.capacity - (s.moved + 1) = n
    omega

lemma Inv.givesBack (h : Inv size d₀ s) (hmutex : s.mutex = some t) : GivesBack s t := by
  have hhold := h.holder t hmutex
  cases hpc : s.inner.base.threads t with
  | register e =>
    obtain hlt | heq := Nat.lt_or_eq_of_le h.room
    · exact givesBack_register hmutex hpc (.inl hlt)
    · exact givesBack_move hmutex hpc heq h.moved
  | signal e => exact givesBack_signal hmutex hpc
  | emplaceBack e => exact givesBack_unlock hmutex hpc
  | _ =>
    rw [hpc] at hhold
    cases hhold

/-- With the mutex free and the pointer there, a run of the logger over its rings without a step of
`append` goes through. -/
lemma lift_run {as : List (RingLogger.Act τ)} {inner : RingLogger.State D} (h : Inv size d₀ s)
    (hmutex : s.mutex = none) (hthere : RingThere s) (has : ∀ a ∈ as, a.thread = none)
    (hrun : RingLogger.machine.run s.inner as = some inner) :
    ∃ bs s', (∀ b ∈ bs, b.thread = none) ∧ machine.run s bs = some s' ∧ s'.inner = inner := by
  induction as generalizing s with
  | nil => exact ⟨[], s, by simp, rfl, Option.some_inj.mp hrun⟩
  | cons a as ih =>
    obtain ⟨i₁, hi₁, hrun⟩ := RingLogger.machine.run_cons_eq_some.mp hrun
    have ha : a.thread = none := has a (List.mem_cons_self ..)
    -- The reference is taken first, if `batch_out` is next.
    obtain ⟨cs, s₁, hcs, hrun₁, h₁, hmutex₁, hthere₁, hinner₁, hp⟩ : ∃ cs s₁,
        (∀ c ∈ cs, Act.thread c = none) ∧ machine.run s cs = some s₁ ∧ Inv size d₀ s₁ ∧
        s₁.mutex = none ∧ RingThere s₁ ∧ s₁.inner = s.inner ∧ s₁.permits a = true := by
      by_cases htake : a = .batchOut ∧ s.ring = none
      · obtain ⟨rfl, hring⟩ := htake
        obtain ⟨w, hw, hs⟩ := Option.bind_eq_some_iff.mp hi₁
        obtain ⟨r', hr', -⟩ := Option.map_eq_some_iff.mp hs
        obtain ⟨hfree, -⟩ := Option.ite_none_right_eq_some.mp hr'
        have hstep : step s .ring = some { s with ring := some (s.block, w.i) } := by
          simp only [step, hw, hring, hfree, and_self, if_true]
        have hzero : s.moved = 0 := by
          by_contra hne
          obtain ⟨-, u, hu, -⟩ := h.moving hne
          cases hmutex.symm.trans hu
        refine ⟨[.ring], _, by simp [Act.thread],
          machine.run_cons_eq_some.mpr ⟨_, hstep, rfl⟩, step_inv h hstep, hmutex,
          (step_ringThere_iff h hthere hstep).mpr fun _ _ => hzero ▸ Nat.zero_le _, rfl, ?_⟩
        simp [State.permits, State.readable, hzero]
      · refine ⟨[], s, by simp, rfl, h, hmutex, hthere, rfl, ?_⟩
        unfold State.permits
        split
        · cases ha
        · cases ha
        · cases ha
        · split <;> simp [hmutex]
        · simp [hmutex]
        · exact hthere fun hring => htake ⟨rfl, hring⟩
        · rfl
    have hs : step s₁ (.inner a) = some (s₁.after a i₁) :=
      step_of_permits hp (by rw [hinner₁]; exact hi₁)
    obtain ⟨bs, s', hbs, hrun', hinner'⟩ := ih (step_inv h₁ hs) (by rw [after_mutex, hmutex₁])
      ((step_ringThere_iff h₁ hthere₁ hs).mpr trivial)
      (fun b hb => has b (List.mem_cons_of_mem _ hb)) (by rw [after_inner]; exact hrun)
    refine ⟨cs ++ .inner a :: bs, s', fun b hb => ?_, ?_, hinner'⟩
    · obtain hb | hb := List.mem_append.mp hb
      · exact hcs b hb
      · obtain rfl | hb := List.mem_cons.mp hb
        · exact ha
        · exact hbs b hb
    · rw [machine.run_append, hrun₁, Option.bind_some]
      exact machine.run_cons_eq_some.mpr ⟨_, hs, hrun'⟩

/-- The pointer that `poll` refers to can be read. -/
lemma Inv.batchOut (h : Inv size d₀ s) (hthere : RingThere s) (hring : s.ring ≠ none) :
    ∃ s', step s (.inner .batchOut) = some s' ∧ s'.ring = none ∧ s'.mutex = s.mutex ∧
      s'.inner.base.stop = s.inner.base.stop := by
  obtain ⟨⟨b, i⟩, hb⟩ := Option.ne_none_iff_exists'.mp hring
  obtain ⟨w, hw, -, hidle⟩ := h.ring b i hb
  obtain ⟨inner, hs, hstop⟩ : ∃ inner, RingLogger.step s.inner .batchOut = some inner ∧
      inner.base.stop = s.inner.base.stop := by
    simp only [RingLogger.step, hw, Option.bind_eq_bind, Option.bind_some,
      RingLogger.State.consume, Spsc.consume, hidle, Spsc.Consumer.Free, if_true, Option.map_some]
    exact ⟨_, rfl, rfl⟩
  exact ⟨_, step_of_permits (hthere hring) hs, rfl, rfl, by rw [after_inner, hstop]⟩

/-- **`stop` returns** from every state in which the pointer that `poll` refers to is there,
wherever the threads are in `append`: the thread that holds the mutex, if there is one, finishes its
registration, and no thread takes another step. -/
theorem stop_returns_past_registration (size : ℕ) (D : Datetime τ) (d₀ : D.State) (s : State D)
    (h : machine.Reachable (start size D d₀) s) (hthere : RingThere s)
    (hstop : s.inner.base.stop ≠ .notCalled) :
    ∃ as s', (∀ a ∈ as, ∀ t, a.thread = some t → s.mutex = some t ∧ a.Registers) ∧
      machine.run s as = some s' ∧ s'.inner.base.stop = .returned := by
  obtain ⟨as₀, hrun₀⟩ := h
  have hinv := run_inv hrun₀
  -- `poll` reads the pointer that it refers to.
  obtain ⟨as, s₁, has, hrun₁, hring₁, hmutex₁, hstop₁⟩ : ∃ as s₁,
      (∀ a ∈ as, Act.thread a = none) ∧ machine.run s as = some s₁ ∧ s₁.ring = none ∧
      s₁.mutex = s.mutex ∧ s₁.inner.base.stop = s.inner.base.stop := by
    by_cases hring : s.ring = none
    · exact ⟨[], s, by simp, rfl, hring, rfl, rfl⟩
    · obtain ⟨s₁, hs₁, hring₁, hmutex₁, hstop₁⟩ := hinv.batchOut hthere hring
      exact ⟨[.inner .batchOut], s₁, by simp [Act.thread, RingLogger.Act.thread],
        machine.run_cons_eq_some.mpr ⟨s₁, hs₁, rfl⟩, hring₁, hmutex₁, hstop₁⟩
  have hinv₁ := machine.run_invariant (fun _ _ _ => step_inv) hinv hrun₁
  -- The mutex is given back.
  obtain ⟨bs, s₂, hbs, hrun₂, hmutex₂, hring₂, hstop₂⟩ : ∃ bs s₂,
      (∀ b ∈ bs, ∀ t, Act.thread b = some t → s.mutex = some t ∧ b.Registers) ∧
      machine.run s₁ bs = some s₂ ∧ s₂.mutex = none ∧ s₂.ring = none ∧
      s₂.inner.base.stop = s.inner.base.stop := by
    cases hmutex : s₁.mutex with
    | none => exact ⟨[], s₁, by simp, rfl, hmutex, hring₁, hstop₁⟩
    | some t =>
      obtain ⟨bs, s₂, hbs, hrun₂, hmutex₂, hring₂, hstop₂⟩ := hinv₁.givesBack hmutex
      refine ⟨bs, s₂, fun b hb u hu => ?_, hrun₂, hmutex₂, hring₂.trans hring₁,
        hstop₂.trans hstop₁⟩
      obtain ⟨ht, hreg⟩ := hbs b hb
      cases ht.symm.trans hu
      exact ⟨hmutex₁.symm.trans hmutex, hreg⟩
  have hinv₂ := machine.run_invariant (fun _ _ _ => step_inv) hinv₁ hrun₂
  -- The rest is a run of the logger over its rings.
  obtain ⟨cs, inner, hcs, hrun₃, hreturned⟩ :=
    RingLogger.rings_stop_returns size D d₀ s₂.inner hinv₂.inner (by rw [hstop₂]; exact hstop)
  obtain ⟨ds, s₃, hds, hrun₄, hinner⟩ :=
    lift_run hinv₂ hmutex₂ (fun hne => absurd hring₂ hne) hcs hrun₃
  refine ⟨as ++ bs ++ ds, s₃, fun a ha t ht => ?_, ?_, by rw [hinner, hreturned]⟩
  · obtain ha | ha := List.mem_append.mp ha
    · obtain ha | ha := List.mem_append.mp ha
      · cases (has a ha).symm.trans ht
      · exact hbs a ha t ht
    · cases (hds a ha).symm.trans ht
  · rw [machine.run_append, machine.run_append, hrun₁, Option.bind_some, hrun₂, Option.bind_some,
      hrun₄]

/-- A thread has the mutex, and the logging thread is in `batch_out`, when `stop` is called. -/
def duringRegistration : List (Act ℕ) :=
  registration 0 0 (LoggerState.entryAt 1) ++ enqueue 0 ++
  [.inner (.shared .run), .inner (.shared .logger), .inner (.shared .logger), .ring,
    .inner .batchOut, .inner (.shared (.thread 1 (.append (LoggerState.entryAt 2)))), .lock 1,
    .inner (.shared .callStop)]

theorem stop_returns_past_registration_holding :
    ∃ s : State LoggerState.numbers, s.mutex = some 1 ∧ s.inner.base.stop = .called ∧
      ∃ as s', (∀ a ∈ as, ∀ t, a.thread = some t → s.mutex = some t ∧ a.Registers) ∧
        machine.run s as = some s' ∧ s'.inner.base.stop = .returned := by
  have hrun : (machine.run (start 8 LoggerState.numbers (0 : ℕ)) duringRegistration).map
      (fun s => (s.mutex, s.inner.base.stop, s.ring)) = some (some 1, .called, none) := by
    decide +kernel
  obtain ⟨s, hs, heq⟩ := Option.map_eq_some_iff.mp hrun
  simp only [Prod.mk.injEq] at heq
  obtain ⟨hmutex, hstop, hring⟩ := heq
  refine ⟨s, hmutex, hstop, stop_returns_past_registration 8 LoggerState.numbers (0 : ℕ) s ⟨_, hs⟩
    (fun hne => absurd hring hne) ?_⟩
  rw [hstop]
  decide

/-! ## The lines of the log -/

/-- What an entry adds to the log, with its time stamp printed from scratch. -/
def line (e : LogRingEntry ℤ) : List Char := (TimeBuffer.fromScratch.write (0 : ℤ) e).2

lemma writeAll_fromScratch (last : ℤ) (es : List (LogRingEntry ℤ)) :
    (TimeBuffer.fromScratch.writeAll last es).2 = es.flatMap line := by
  induction es generalizing last with
  | nil => rfl
  | cons e es ih =>
    rw [List.flatMap_cons, ← ih]
    rfl

/-- An entry at a given time. -/
def entryAt (ts : ℤ) : LogRingEntry ℤ :=
  ⟨['a'], 7, .info, ts, [' ', ' ', ' ', '4', '2', ' '], ['x']⟩

/-- **The log holds the lines of its entries.**  When `stop` returns, the data handed to the file is
one line after another, of a list of entries in which each thread's are the first ones it has put
into its ring, in their order, with all those for which `append` had returned; and each line begins
with the time stamp of its own entry, though the logger keeps the text of the one before and prints
only what differs. -/
theorem file_holds_lines (size : ℕ) (now : ℤ) (hnow : FourDigitYear now) (d₀ : TimeBuffer)
    (hd₀ : TimeBuffer.start now = some d₀) (s : State TimeBuffer.buffered)
    (h : machine.Reachable (start size TimeBuffer.buffered d₀) s)
    (hstop : s.inner.base.stop = .returned)
    (hyears : ∀ t ∈ s.inner.base.logRings, ∀ e ∈ (s.inner.rings t).enqueued,
      FourDigitYear e.ts) :
    ∃ entries : List (ℕ × LogRingEntry ℤ),
      s.inner.base.output = entries.flatMap (fun e => line e.2) ∧
      ∀ t, s.inner.base.before t <+: ofThread t entries ∧
        ofThread t entries <+: (s.inner.rings t).enqueued := by
  obtain ⟨as, hrun⟩ := h
  have hinner := (run_inv hrun).inner
  obtain ⟨entries, htext, hentries⟩ :=
    (RingLogger.rings_write_once size TimeBuffer.buffered d₀ s.inner hinner).2.1 hstop
  obtain ⟨d, hd, hbuffer⟩ := TimeBuffer.start_spec hnow
  cases hd₀.symm.trans hd
  refine ⟨entries, ?_, hentries⟩
  rw [htext, TimeBuffer.writeAll_buffered hbuffer 0 fun e he => ?_, writeAll_fromScratch,
    List.flatMap_map]
  obtain ⟨⟨t, e⟩, hmem, rfl⟩ := List.mem_map.mp he
  have henq : e ∈ (s.inner.rings t).enqueued := (hentries t).2.subset
    (List.mem_map.mpr ⟨(t, e), List.mem_filter.mpr ⟨hmem, decide_eq_true rfl⟩, rfl⟩)
  refine hyears t ?_ e henq
  by_contra hnot
  -- A thread without a ring has put nothing into one.
  obtain ⟨-, hview⟩ := RingLogger.run_simulates hinner
  obtain ⟨-, -, -, hrings, henqueued⟩ := RingLogger.view_frame s.inner
  have hnil := (LoggerState.reachable_inv hview).data.registered t (hrings ▸ hnot)
  rw [henqueued] at hnil
  exact List.ne_nil_of_mem henq hnil

/-- The second entry is of the day after that of the first. -/
theorem file_holds_lines_midnight :
    ∃ (d₀ : TimeBuffer) (s : State TimeBuffer.buffered), TimeBuffer.start 0 = some d₀ ∧
      s.inner.base.before 0 = [entryAt 86399999999000,
        entryAt 86400000001000] ∧
      ∃ entries : List (ℕ × LogRingEntry ℤ),
        s.inner.base.output = entries.flatMap (fun e => line e.2) ∧
        ∀ t, s.inner.base.before t <+: ofThread t entries ∧
          ofThread t entries <+: (s.inner.rings t).enqueued := by
  have hrun : ((TimeBuffer.start 0).bind fun d₀ =>
      (machine.run (start 8 TimeBuffer.buffered d₀) (duringBatchOut
        (entryAt 86399999999000) (entryAt 86400000001000))).map fun s =>
          (s.inner.base.stop, s.inner.base.before 0, s.inner.base.logRings,
            (s.inner.rings 0).enqueued))
      = some (.returned, [entryAt 86399999999000, entryAt 86400000001000],
          [0], [entryAt 86399999999000, entryAt 86400000001000]) := by
    decide +kernel
  obtain ⟨d₀, hd₀, hrun⟩ := Option.bind_eq_some_iff.mp hrun
  obtain ⟨s, hs, heq⟩ := Option.map_eq_some_iff.mp hrun
  simp only [Prod.mk.injEq] at heq
  obtain ⟨hstop, hbefore, hrings, henqueued⟩ := heq
  refine ⟨d₀, s, hd₀, hbefore, file_holds_lines 8 0 (by decide) d₀ hd₀ s ⟨_, hs⟩ hstop ?_⟩
  rw [hrings, List.forall_mem_singleton, henqueued]
  decide

end Coring.Logging.LogRings
