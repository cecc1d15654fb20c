import Coring.Logging.RingDelivery

/-!
# The vector of the rings

In `Coring.Logging.AsyncLogger` and `Coring.Logging.RingLogger` the rings are a list and a thread
adds its ring to it in one step.  In the code `log_rings_` is a vector, with room for four pointers
at first.  `append` adds a pointer under `mutex_`; when the vector is full, `emplace_back` moves the
pointers to a new block of memory with twice the room, one after the other, frees the old block and
has the vector take the new one.  `poll` takes the mutex to read the size, and its loop goes
without: it takes a reference to a pointer in the vector (`auto &ring = log_rings_[i]`) and reads
the pointer there when it calls `batch_out`.  Between these two the block may be another one.

Here the logger over its rings is seen with the mutex and the vector.  Its steps are those of
before, as far as the mutex lets a party go on, and the accesses to the vector.  To read a pointer
that is no longer there has no defined effect, and is no step.

`Sound` is what is asked of a state: the pointer about to be read is there, and the entries are in
the file once `stop` has returned.  `Undisturbed` is the condition on the steps of a run that is
equivalent to it.
-/

namespace Coring.Logging.LogRings

variable {τ : Type} {D : Datetime τ}

/-! ## The machine -/

structure State (D : Datetime τ) where
  /-- Everything else. -/
  inner : RingLogger.State D
  /-- The thread that holds `mutex_` in `append`; the others give it back in the same step. -/
  mutex : Option ℕ
  /-- The block of memory with the elements of `log_rings_`, -/
  block : ℕ
  /-- how many there is room for, -/
  capacity : ℕ
  /-- and how many `emplace_back` has moved to the next block. -/
  moved : ℕ
  /-- `ring` in `poll`: the block and the index in it. -/
  ring : Option (ℕ × ℕ)

inductive Act (τ : Type)
  /-- `append` finds no ring and locks the mutex. -/
  | lock (t : ℕ)
  /-- `emplace_back` on a full vector moves the next pointer. -/
  | move (t : ℕ)
  /-- The guard gives the mutex back. -/
  | unlock (t : ℕ)
  /-- `auto &ring = log_rings_[i]`. -/
  | ring
  /-- A step of the logger over its rings. -/
  | inner (a : RingLogger.Act τ)

/-- The thread whose step it is, if it is one of `append`. -/
def Act.thread : Act τ → Option ℕ
  | .lock t | .move t | .unlock t => some t
  | .ring => none
  | .inner a => a.thread

namespace State

variable (s : State D)

/-- `log_rings_.size()`. -/
def size : ℕ := s.inner.base.logRings.length

/-- The pointer that `ring` refers to is there. -/
def readable : Bool :=
  match s.ring with
  | some (b, i) => b = s.block && s.moved ≤ i
  | none => false

/-- What the mutex and the vector have to say to a step. -/
def permits : RingLogger.Act τ → Bool
  -- `emplace_back` returns; with a full vector when all pointers have been moved.
  | .shared (.thread t .register) =>
      s.mutex = some t && (s.size < s.capacity || s.moved = s.capacity)
  | .shared (.thread t .signal) => s.mutex = some t
  -- `local_log_ring_ptr->emplace_back` comes after the guard.
  | .emplace t => s.mutex ≠ some t
  | .shared .logger => match s.inner.base.logger with
      | .poll _ | .wait => s.mutex = none
      | _ => true
  | .shared .forceFlush => s.mutex = none
  | .batchOut => s.readable
  | _ => true

/-- What the step does to them. -/
def after (a : RingLogger.Act τ) (inner : RingLogger.State D) : State D :=
  match a with
  | .shared (.thread _ .register) =>
      if s.size < s.capacity then { s with inner := inner }
      else { s with inner := inner, block := s.block + 1, capacity := 2 * s.capacity, moved := 0 }
  | .batchOut => { s with inner := inner, ring := none }
  | _ => { s with inner := inner }

end State

def step (s : State D) : Act τ → Option (State D)
  | .lock t => match s.inner.base.threads t with
      | .register _ => if s.mutex = none then some { s with mutex := some t } else none
      | _ => none
  | .move t => match s.inner.base.threads t with
      | .register _ =>
          if s.mutex = some t ∧ s.size = s.capacity ∧ s.moved < s.capacity then
            some { s with moved := s.moved + 1 }
          else none
      | _ => none
  | .unlock t => match s.inner.base.threads t with
      | .emplaceBack _ => if s.mutex = some t then some { s with mutex := none } else none
      | _ => none
  | .ring => match RingLogger.turn s.inner.base with
      | some w =>
          if s.ring = none ∧ (s.inner.rings w.thread).consumer.Free = true then
            some { s with ring := some (s.block, w.i) }
          else none
      | none => none
  | .inner a =>
      if s.permits a then (RingLogger.step s.inner a).map (s.after a) else none

def machine : Machine (State D) (Act τ) := ⟨step⟩

/-- A new logger, with `log_rings_.reserve(4)`. -/
def start (size : ℕ) (D : Datetime τ) (d : D.State) : State D where
  inner := RingLogger.start size D d
  mutex := none
  block := 0
  capacity := 4
  moved := 0
  ring := none

/-- What a step can do, and when. -/
inductive Steps (s : State D) : Act τ → State D → Prop
  | lock {t : ℕ} {e : LogRingEntry τ} (hpc : s.inner.base.threads t = .register e)
      (hfree : s.mutex = none) : Steps s (.lock t) { s with mutex := some t }
  | move {t : ℕ} {e : LogRingEntry τ} (hpc : s.inner.base.threads t = .register e)
      (hmutex : s.mutex = some t) (hfull : s.size = s.capacity) (hlt : s.moved < s.capacity) :
      Steps s (.move t) { s with moved := s.moved + 1 }
  | unlock {t : ℕ} {e : LogRingEntry τ} (hpc : s.inner.base.threads t = .emplaceBack e)
      (hmutex : s.mutex = some t) : Steps s (.unlock t) { s with mutex := none }
  | ring {w : RingLogger.Turn} (hw : RingLogger.turn s.inner.base = some w) (hnone : s.ring = none)
      (hfree : (s.inner.rings w.thread).consumer.Free = true) :
      Steps s .ring { s with ring := some (s.block, w.i) }
  | inner {a : RingLogger.Act τ} {inner : RingLogger.State D} (hp : s.permits a = true)
      (hs : RingLogger.step s.inner a = some inner) : Steps s (.inner a) (s.after a inner)

lemma step_cases {s s' : State D} {a : Act τ} (hs : step s a = some s') : Steps s a s' := by
  cases a with
  | lock t =>
    simp only [step] at hs
    split at hs
    · next e hpc =>
      obtain ⟨hfree, hs⟩ := Option.ite_none_right_eq_some.mp hs
      cases hs
      exact .lock hpc hfree
    · cases hs
  | move t =>
    simp only [step] at hs
    split at hs
    · next e hpc =>
      obtain ⟨⟨hmutex, hfull, hlt⟩, hs⟩ := Option.ite_none_right_eq_some.mp hs
      cases hs
      exact .move hpc hmutex hfull hlt
    · cases hs
  | unlock t =>
    simp only [step] at hs
    split at hs
    · next e hpc =>
      obtain ⟨hmutex, hs⟩ := Option.ite_none_right_eq_some.mp hs
      cases hs
      exact .unlock hpc hmutex
    · cases hs
  | ring =>
    simp only [step] at hs
    split at hs
    · next w hw =>
      obtain ⟨⟨hnone, hfree⟩, hs⟩ := Option.ite_none_right_eq_some.mp hs
      cases hs
      exact .ring hw hnone hfree
    · cases hs
  | inner a =>
    obtain ⟨hp, hs⟩ := Option.ite_none_right_eq_some.mp hs
    obtain ⟨inner, hinner, rfl⟩ := Option.map_eq_some_iff.mp hs
    exact .inner hp hinner

/-! ## The property and the condition -/

/-- The reference that `poll` has taken is to a pointer that is there. -/
def RingThere (s : State D) : Prop := s.ring ≠ none → s.readable = true

structure Sound (d₀ : D.State) (s : State D) : Prop where
  ringThere : RingThere s
  written : s.inner.base.stop = .returned → ∃ entries : List (ℕ × LogRingEntry τ),
    s.inner.base.output = (D.writeAll d₀ (entries.map Prod.snd)).2 ∧
    ∀ t, s.inner.base.before t <+: ofThread t entries ∧
      ofThread t entries <+: (s.inner.rings t).enqueued

/-- A pointer is not moved while `poll` is between taking a reference to it and reading it, and a
reference is not taken to a pointer that has been moved. -/
def Undisturbed (s : State D) : Act τ → Prop
  | .move _ => ∀ b, s.ring ≠ some (b, s.moved)
  | .ring => ∀ w, RingLogger.turn s.inner.base = some w → s.moved ≤ w.i
  | _ => True

/-! ## The invariant -/

variable {d₀ : D.State} {s s' : State D} {size t : ℕ}

lemma ringThere_iff : RingThere s ↔ ∀ b i, s.ring = some (b, i) → b = s.block ∧ s.moved ≤ i := by
  unfold RingThere State.readable
  cases s.ring with
  | none => simp
  | some r =>
    simp only [Bool.and_eq_true, decide_eq_true_eq, ne_eq, reduceCtorEq, not_false_eq_true,
      forall_const, Option.some.injEq]
    exact ⟨fun h b i hr => by rwa [hr] at h, fun h => h r.1 r.2 rfl⟩

/-- Where a thread is that holds the mutex. -/
def Holding (s : RingLogger.State D) (t : ℕ) : AppendPc τ → Prop
  | .register _ | .signal _ => True
  | .emplaceBack _ => (s.rings t).producer = .idle
  | _ => False

/-- A thread that holds the mutex is about to register its ring. -/
def registering : AppendPc τ → Prop
  | .register _ => True
  | _ => False

structure Inv (size : ℕ) (d₀ : D.State) (s : State D) : Prop where
  inner : RingLogger.machine.Reachable (RingLogger.start size D d₀) s.inner
  room : s.size ≤ s.capacity
  pos : 0 < s.capacity
  moved : s.moved ≤ s.capacity
  ring (b i : ℕ) : s.ring = some (b, i) → ∃ w, RingLogger.turn s.inner.base = some w ∧ w.i = i ∧
    (s.inner.rings w.thread).consumer = .idle
  holder (t : ℕ) : s.mutex = some t → Holding s.inner t (s.inner.base.threads t)
  moving : s.moved ≠ 0 → s.size = s.capacity ∧
    ∃ t, s.mutex = some t ∧ registering (s.inner.base.threads t)

lemma inv_start (size : ℕ) (d₀ : D.State) : Inv size d₀ (start size D d₀) where
  inner := ⟨[], rfl⟩
  room := Nat.zero_le _
  pos := Nat.succ_pos _
  moved := Nat.zero_le _
  ring _ _ h := by cases h
  holder _ h := by cases h
  moving h := absurd rfl h

/-! ## Steps -/

lemma Inv.reachable_step (h : Inv size d₀ s) {inner : RingLogger.State D} {a : RingLogger.Act τ}
    (hs : RingLogger.step s.inner a = some inner) :
    RingLogger.machine.Reachable (RingLogger.start size D d₀) inner :=
  h.inner.step RingLogger.machine (a := a) hs

/-- A thread that is not in `emplace_back` is not in `emplace`. -/
lemma Inv.producer_idle (h : Inv size d₀ s) (ht : ∀ e, s.inner.base.threads t ≠ .emplaceBack e) :
    (s.inner.rings t).producer = .idle := by
  have hinv := (RingLogger.run_simulates h.inner).1
  have hnone : ∀ e, RingLogger.value (s.inner.rings t).producer ≠ some e :=
    fun e he => ht e (hinv.producer t e he)
  cases hp : (s.inner.rings t).producer with
  | idle => rfl
  | _ =>
    rw [hp] at hnone
    exact absurd rfl (hnone _)

/-- With the mutex a thread registers its ring and sets the flag. -/
lemma Inv.holder_step (h : Inv size d₀ s) (hmutex : s.mutex = some t) {a : RingLogger.Act τ}
    (ha : a.thread = some t) (hp : s.permits a = true) {inner : RingLogger.State D}
    (hs : RingLogger.step s.inner a = some inner) :
    (a = .shared (.thread t .register) ∧ ∃ e, s.inner.base.threads t = .register e ∧
      inner.base.threads t = .signal e ∧ inner.base.logRings = s.inner.base.logRings ++ [t]) ∨
    (a = .shared (.thread t .signal) ∧ ∃ e, s.inner.base.threads t = .signal e ∧
      inner.base.threads t = .emplaceBack e ∧ (inner.rings t).producer = .idle) := by
  have hhold := h.holder t hmutex
  have hidle : (s.inner.rings t).producer = .idle := by
    cases hpc : s.inner.base.threads t with
    | emplaceBack e =>
      rw [hpc] at hhold
      exact hhold
    | _ => exact h.producer_idle fun e he => by cases hpc.symm.trans he
  have hquiet : ∀ b : Spsc.ProducerAct (LogRingEntry τ), (∀ v, b ≠ .emplace v) →
      (∀ v, b ≠ .tryEmplace v) → Spsc.produce (s.inner.rings t) b = none := by
    intro b hne hne'
    cases b with
    | emplace v => exact absurd rfl (hne v)
    | tryEmplace v => exact absurd rfl (hne' v)
    | _ => simp only [Spsc.produce, hidle]
  cases a with
  | shared b =>
    obtain ⟨hacc, hs⟩ := Option.ite_none_left_eq_some.mp hs
    obtain ⟨b', hb', rfl⟩ := Option.map_eq_some_iff.mp hs
    cases b with
    | thread u b =>
      cases ha
      cases b with
      | register =>
        refine .inl ⟨rfl, ?_⟩
        simp only [LoggerState.step, LoggerState.threadStep] at hb'
        split at hb'
        · next e hpc =>
          cases hb'
          exact ⟨e, hpc, Function.update_self .., rfl⟩
        · cases hb'
      | signal =>
        refine .inr ⟨rfl, ?_⟩
        simp only [LoggerState.step, LoggerState.threadStep] at hb'
        split at hb'
        · next e hpc =>
          cases hb'
          exact ⟨e, hpc, Function.update_self .., hidle⟩
        · cases hb'
      | emplaceBack => exact absurd rfl hacc
      | append e =>
        simp only [LoggerState.step, LoggerState.threadStep] at hb'
        split at hb'
        · next hpc =>
          rw [hpc] at hhold
          cases hhold
        · cases hb'
      | notifyOne =>
        simp only [LoggerState.step, LoggerState.threadStep] at hb'
        split at hb'
        · next hpc =>
          rw [hpc] at hhold
          cases hhold
        · cases hb'
    | _ => cases ha
  | emplace u =>
    cases ha
    exact absurd hmutex (by simpa only [State.permits, decide_eq_true_eq] using hp)
  | loadRead u =>
    cases ha
    simp [RingLogger.step, RingLogger.State.produce, hquiet] at hs
  | construct u =>
    cases ha
    simp [RingLogger.step, RingLogger.State.produce, hquiet] at hs
  | publish u =>
    cases ha
    simp only [RingLogger.step] at hs
    split at hs
    · simp [RingLogger.State.produce, hquiet] at hs
    · cases hs
  | _ => cases ha

/-- What a step of another party leaves of a thread that holds the mutex. -/
lemma holding_of_other {inner : RingLogger.State D} {a : RingLogger.Act τ}
    (ha : a.thread ≠ some t) (hs : RingLogger.step s.inner a = some inner)
    (h : Holding s.inner t (s.inner.base.threads t)) :
    Holding inner t (inner.base.threads t) := by
  obtain ⟨hthreads, hproducer⟩ := RingLogger.step_other hs ha
  rw [hthreads]
  cases hpc : s.inner.base.threads t with
  | emplaceBack e =>
    rw [hpc] at h
    exact hproducer.trans h
  | _ =>
    rw [hpc] at h
    exact h

/-- The registration of a ring. -/
lemma register_inv (h : Inv size d₀ s) {inner : RingLogger.State D}
    (hp : s.permits (.shared (.thread t .register)) = true)
    (hs : RingLogger.step s.inner (.shared (.thread t .register)) = some inner) :
    Inv size d₀ (s.after (.shared (.thread t .register)) inner) := by
  have hp' := hp
  simp only [State.permits, Bool.and_eq_true, decide_eq_true_eq, Bool.or_eq_true] at hp
  obtain ⟨hmutex, hroom⟩ := hp
  obtain ⟨-, e, -, hpc, hrings⟩ | ⟨hne, -⟩ := h.holder_step hmutex rfl hp' hs
  swap
  · cases hne
  have hinner := h.reachable_step hs
  have hsize : inner.base.logRings.length = s.size + 1 := by
    rw [hrings, List.length_append]
    rfl
  have hring : ∀ b i, s.ring = some (b, i) → ∃ w, RingLogger.turn inner.base = some w ∧
      w.i = i ∧ (inner.rings w.thread).consumer = .idle := fun b i hi => by
    obtain ⟨w, hw, hwi, hidle⟩ := h.ring b i hi
    obtain ⟨hw', hidle'⟩ := RingLogger.step_atRing hs (fun ha => by cases ha) hw hidle
    exact ⟨w, hw', hwi, hidle'⟩
  have hholder : ∀ u, s.mutex = some u → Holding inner u (inner.base.threads u) := fun u hu => by
    cases hmutex.symm.trans hu
    rw [hpc]
    trivial
  simp only [State.after]
  split
  · next hlt =>
    have hzero : s.moved = 0 := by
      by_contra hne
      exact absurd (h.moving hne).1 (Nat.ne_of_lt hlt)
    have hroom' : inner.base.logRings.length ≤ s.capacity := hsize ▸ hlt
    exact ⟨hinner, hroom', h.pos, h.moved, hring, hholder, fun hne => absurd hzero hne⟩
  · next hlt =>
    refine ⟨hinner, ?_, Nat.mul_pos Nat.two_pos h.pos, Nat.zero_le _, hring, hholder,
      fun hne => absurd rfl hne⟩
    have hle := h.room
    have hpos := h.pos
    change inner.base.logRings.length ≤ 2 * s.capacity
    omega

lemma inner_inv (h : Inv size d₀ s) {inner : RingLogger.State D} {a : RingLogger.Act τ}
    (hp : s.permits a = true) (hs : RingLogger.step s.inner a = some inner) :
    Inv size d₀ (s.after a inner) := by
  by_cases hreg : ∃ t, a = .shared (.thread t .register)
  · obtain ⟨t, rfl⟩ := hreg
    exact register_inv h hp hs
  have hinner := h.reachable_step hs
  have hsize : inner.base.logRings = s.inner.base.logRings :=
    RingLogger.step_logRings hs fun u hu => hreg ⟨u, hu⟩
  have hroom : inner.base.logRings.length ≤ s.capacity := hsize ▸ h.room
  have hholder : ∀ u, s.mutex = some u → Holding inner u (inner.base.threads u) := fun u hu => by
    by_cases ha : a.thread = some u
    · obtain ⟨hne, -⟩ | ⟨-, e, -, hpc, hidle⟩ := h.holder_step hu ha hp hs
      · exact absurd ⟨u, hne⟩ hreg
      · rw [hpc]
        exact hidle
    · exact holding_of_other ha hs (h.holder u hu)
  have hmoving : s.moved ≠ 0 → inner.base.logRings.length = s.capacity ∧
      ∃ u, s.mutex = some u ∧ registering (inner.base.threads u) := fun hne => by
    obtain ⟨hfull, u, hu, hpc⟩ := h.moving hne
    refine ⟨hsize ▸ hfull, u, hu, ?_⟩
    by_cases ha : a.thread = some u
    · obtain ⟨hne, -⟩ | ⟨-, e, hpc', -⟩ := h.holder_step hu ha hp hs
      · exact absurd ⟨u, hne⟩ hreg
      · rw [hpc'] at hpc
        cases hpc
    · rwa [(RingLogger.step_other hs ha).1]
  by_cases hbatch : a = .batchOut
  · subst hbatch
    exact ⟨hinner, hroom, h.pos, h.moved, fun b i hi => (by cases hi), hholder, hmoving⟩
  · have hafter : s.after a inner = { s with inner := inner } := by
      unfold State.after
      split
      · exact absurd ⟨_, rfl⟩ hreg
      · exact absurd rfl hbatch
      · rfl
    rw [hafter]
    refine ⟨hinner, hroom, h.pos, h.moved, fun b i hi => ?_, hholder, hmoving⟩
    obtain ⟨w, hw, hwi, hidle⟩ := h.ring b i hi
    obtain ⟨hw', hidle'⟩ := RingLogger.step_atRing hs hbatch hw hidle
    exact ⟨w, hw', hwi, hidle'⟩

lemma step_inv {a : Act τ} (h : Inv size d₀ s) (hs : step s a = some s') : Inv size d₀ s' := by
  cases step_cases hs with
  | lock hpc hfree =>
    refine ⟨h.inner, h.room, h.pos, h.moved, h.ring, fun u hu => ?_, fun hne => ?_⟩
    · cases hu
      rw [hpc]
      trivial
    · obtain ⟨-, u, hu, -⟩ := h.moving hne
      cases hfree.symm.trans hu
  | move hpc hmutex hfull hlt =>
    refine ⟨h.inner, h.room, h.pos, hlt, h.ring, h.holder, fun _ => ⟨hfull, _, hmutex, ?_⟩⟩
    rw [hpc]
    trivial
  | unlock hpc hmutex =>
    refine ⟨h.inner, h.room, h.pos, h.moved, h.ring, fun u hu => (by cases hu), fun hne => ?_⟩
    obtain ⟨-, u, hu, hreg⟩ := h.moving hne
    cases hmutex.symm.trans hu
    rw [hpc] at hreg
    cases hreg
  | @ring w hw hnone hfree =>
    refine ⟨h.inner, h.room, h.pos, h.moved, fun b i hi => ?_, h.holder, h.moving⟩
    cases hi
    have hbatching := ((RingLogger.run_simulates h.inner).1.ring w.thread).batching
    refine ⟨w, hw, rfl, ?_⟩
    cases hc : (s.inner.rings w.thread).consumer with
    | idle => rfl
    | pointer p => rw [hc] at hbatching; cases hbatching
    | seen p x => rw [hc] at hbatching; cases hbatching
    | _ => rw [hc] at hfree; cases hfree
  | inner hp hinner => exact inner_inv h hp hinner

/-- The pointer that `poll` refers to is there after a step if and only if the step does not disturb
it. -/
lemma step_ringThere_iff {a : Act τ} (h : Inv size d₀ s) (hthere : RingThere s)
    (hs : step s a = some s') : RingThere s' ↔ Undisturbed s a := by
  rw [ringThere_iff] at hthere ⊢
  cases step_cases hs with
  | lock => exact iff_of_true hthere trivial
  | move =>
    constructor
    · intro hthere' b hb
      exact absurd (hthere' b s.moved hb).2 (Nat.not_succ_le_self _)
    · intro hne b i hi
      obtain ⟨hblock, hle⟩ := hthere b i hi
      have : i ≠ s.moved := fun hi' => hne b (hi' ▸ hi)
      exact ⟨hblock, by change s.moved + 1 ≤ i; omega⟩
  | unlock => exact iff_of_true hthere trivial
  | @ring w hw =>
    constructor
    · intro hthere' w' hw'
      cases hw.symm.trans hw'
      exact (hthere' _ _ rfl).2
    · intro hle b i hi
      cases hi
      exact ⟨rfl, hle w hw⟩
  | inner hp =>
    refine iff_of_true (fun b i hi => ?_) trivial
    unfold State.after at hi ⊢
    split at hi
    · next u =>
      split
      · next hlt =>
        rw [if_pos hlt] at hi
        exact hthere b i hi
      · next hlt =>
        -- All pointers have been moved, so none of them is referred to.
        rw [if_neg hlt] at hi
        obtain ⟨w, hw, rfl, -⟩ := h.ring b i hi
        obtain ⟨-, -, hget⟩ := RingLogger.turn_eq_some_iff.mp hw
        have hwlt : w.i < s.size := (List.getElem?_eq_some_iff.mp hget).1
        have hle := (hthere b w.i hi).2
        have hroom := h.room
        simp only [State.permits, Bool.and_eq_true, decide_eq_true_eq, Bool.or_eq_true] at hp
        omega
    · cases hi
    · exact hthere b i hi

/-! ## Runs -/

lemma run_inv {as : List (Act τ)} (hrun : machine.run (start size D d₀) as = some s) :
    Inv size d₀ s :=
  machine.run_invariant (fun _ _ _ => step_inv) (inv_start size d₀) hrun

/-- **What is appended is written once, as long as the rings stay where they are.**  In every state
of a run the pointer that `poll` refers to is there, and what has been appended is in the file when
`stop` has returned, if and only if no step of the run disturbs `poll`. -/
theorem sound_iff_undisturbed (size : ℕ) (D : Datetime τ) (d₀ : D.State) (as : List (Act τ)) :
    machine.Always (Sound d₀) (start size D d₀) as ↔
      machine.Each Undisturbed (start size D d₀) as := by
  have hsound : ∀ s, Inv size d₀ s → (Sound d₀ s ↔ RingThere s) := fun s h =>
    ⟨Sound.ringThere, fun hthere =>
      ⟨hthere, (RingLogger.rings_write_once size D d₀ s.inner h.inner).2.1⟩⟩
  refine machine.always_iff_each (I := Inv size d₀) (D := fun _ _ => True)
    (fun _ _ _ => step_inv) (fun s a s' h _ hs hstep => ?_) as _ (inv_start size d₀) ?_
    (machine.each_of_forall (fun _ _ => trivial) _ _)
  · rw [hsound s' (step_inv h hstep)]
    exact step_ringThere_iff h hs.ringThere hstep
  · exact (hsound _ (inv_start size d₀)).mpr fun h => absurd rfl h

/-! ## A fifth thread -/

/-- While `poll` refers to a pointer, `stop` has not returned. -/
lemma Inv.not_returned (h : Inv size d₀ s) {b i : ℕ} (hb : s.ring = some (b, i)) :
    s.inner.base.stop ≠ .returned := fun hstop => by
  obtain ⟨w, hw, -, hidle⟩ := h.ring b i hb
  obtain ⟨hinv, hview⟩ := RingLogger.run_simulates h.inner
  rw [RingLogger.view_of_idle (hinv.claims_eq_zero hw (fun _ _ => rfl) (by rw [hidle]; rfl))]
    at hview
  have hdone : s.inner.base.logger = .done := (LoggerState.reachable_inv hview).returned hstop
  cases (RingLogger.turn_eq_some_iff.mp hw).1.symm.trans hdone

/-- `poll` refers to a pointer in a block that is not that of the vector any more. -/
def Lost (s : State D) : Prop := ∃ b i, s.ring = some (b, i) ∧ b < s.block

/-- The logging thread does not get past it. -/
lemma lost_step {a : Act τ} (hlost : Lost s) (hs : step s a = some s') : Lost s' := by
  obtain ⟨b, i, hb, hlt⟩ := hlost
  cases step_cases hs with
  | lock => exact ⟨b, i, hb, hlt⟩
  | move => exact ⟨b, i, hb, hlt⟩
  | unlock => exact ⟨b, i, hb, hlt⟩
  | ring _ hnone => cases hb.symm.trans hnone
  | inner hp =>
    unfold State.after
    split
    · split
      · exact ⟨b, i, hb, hlt⟩
      · exact ⟨b, i, hb, Nat.lt_succ_of_lt hlt⟩
    · simp only [State.permits, State.readable, hb, Bool.and_eq_true, decide_eq_true_eq] at hp
      exact absurd hp.1 (Nat.ne_of_lt hlt)
    · exact ⟨b, i, hb, hlt⟩

/-- Thread `t` calls `append` for the first time and registers its ring, after `moves` pointers have
been moved. -/
def registration (t moves : ℕ) (e : LogRingEntry τ) : List (Act τ) :=
  [.inner (.shared (.thread t (.append e))), .lock t] ++ List.replicate moves (.move t) ++
    [.inner (.shared (.thread t .register)), .inner (.shared (.thread t .signal)), .unlock t]

/-- It puts the entry into the ring. -/
def enqueue (t : ℕ) : List (Act τ) :=
  [.inner (.emplace t), .inner (.loadRead t), .inner (.construct t), .inner (.publish t),
    .inner (.shared (.thread t .notifyOne))]

/-- Four threads append an entry each, and the logging thread has taken a reference to the pointer
to the first ring when a fifth one registers its ring. -/
def fifthThread : List (Act ℕ) :=
  (List.range 4).flatMap (fun t => registration t 0 (LoggerState.entryAt t) ++ enqueue t) ++
  [.inner (.shared .run), .inner (.shared .logger), .inner (.shared .logger), .ring] ++
  registration 4 4 (LoggerState.entryAt 4) ++
  [.inner (.shared .callStop), .inner (.shared .requestStop), .inner (.shared .forceFlush)]

/-- The pointer is not there any more, and `stop` does not return: nothing of what was appended
before it was called is in the file. -/
theorem not_sound_fifthThread :
    ∃ s, machine.run (start 8 LoggerState.numbers (0 : ℕ)) fifthThread = some s ∧
      (∀ t < 4, s.inner.base.before t = [LoggerState.entryAt t]) ∧ s.inner.base.output = [] ∧
      ¬ Sound (0 : ℕ) s ∧
      ∀ as s', machine.run s as = some s' → s'.inner.base.stop ≠ .returned := by
  have hrun : (machine.run (start 8 LoggerState.numbers (0 : ℕ)) fifthThread).map
      (fun s => ((List.range 4).map s.inner.base.before, s.inner.base.output, s.ring, s.block))
      = some ((List.range 4).map fun t => [LoggerState.entryAt t], [], some (0, 0), 1) := by
    decide +kernel
  obtain ⟨s, hs, heq⟩ := Option.map_eq_some_iff.mp hrun
  simp only [Prod.mk.injEq] at heq
  obtain ⟨hbefore, houtput, hring, hblock⟩ := heq
  refine ⟨s, hs, fun t ht => ?_, houtput, fun hsound => ?_, fun as s' hrun' => ?_⟩
  · exact List.map_inj_left.mp hbefore t (List.mem_range.mpr ht)
  · have hthere := (ringThere_iff.mp hsound.ringThere 0 0 hring).1
    rw [hblock] at hthere
    cases hthere
  · have hlost : Lost s := ⟨0, 0, hring, by rw [hblock]; exact Nat.one_pos⟩
    obtain ⟨b, i, hb, -⟩ := machine.run_invariant (fun _ _ _ => lost_step) hlost hrun'
    have hinv := machine.run_invariant (fun _ _ _ => step_inv) (run_inv hs) hrun'
    exact hinv.not_returned hb

end Coring.Logging.LogRings
