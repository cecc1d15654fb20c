import Coring.Logging.RingLogger

/-!
# The logger over its rings loses and duplicates nothing

What `Coring.Logging.Delivery` shows of the logger with queues holds of the logger over its rings,
since a run of it is a run of the other.  `stop` returns when it has been called, since the
logging thread gets past each ring in finitely many accesses, whatever the threads have done.
-/

namespace Coring.Logging.RingLogger

variable {τ : Type} {D : Datetime τ} {d₀ : D.State} {s s' : State D} {w : Turn} {size : ℕ}

/-! ## What the file has got -/

/-- What has come out, and what `stop` accounts for, is the same in both. -/
lemma view_frame (s : State D) : (view s).output = s.base.output ∧ (view s).stop = s.base.stop ∧
    (view s).before = s.base.before ∧ (view s).logRings = s.base.logRings ∧
    (view s).enqueued = fun t => (s.rings t).enqueued := by
  unfold view
  split <;> exact ⟨rfl, rfl, rfl, rfl, rfl⟩

/-- **The logger writes each entry once, over its rings.**  Each interleaving of the accesses of
all threads and of the logging thread to the rings and to the rest is a run of the logger over
queues.  So when `stop` returns, the data handed to the file is the text of a list of entries, in
which each thread's entries are the first ones it has put into its ring, each once and in their
order, with all those for which `append` had returned when `stop` was called.  In every state, the
slot a thread is about to write is not the one the logging thread is about to read. -/
theorem rings_write_once (size : ℕ) (D : Datetime τ) (d₀ : D.State) (s : State D)
    (h : machine.Reachable (start size D d₀) s) :
    LoggerState.machine.Reachable (LoggerState.start D d₀) (view s) ∧
    (s.base.stop = .returned → ∃ entries : List (ℕ × LogRingEntry τ),
      s.base.output = (D.writeAll d₀ (entries.map Prod.snd)).2 ∧
      ∀ t, s.base.before t <+: ofThread t entries ∧
        ofThread t entries <+: (s.rings t).enqueued) ∧
    ∀ t p q, (s.rings t).nextWrite = some p → (s.rings t).nextRead = some q → p ≠ q := by
  obtain ⟨hinv, hview⟩ := run_simulates h
  obtain ⟨houtput, hstop, hbefore, -, henqueued⟩ := view_frame s
  refine ⟨hview, fun hret => ?_, fun t p q hp hq heq => ?_⟩
  · obtain ⟨entries, htext, hentries⟩ :=
      LoggerState.appended_written_once D d₀ _ hview (hstop.trans hret)
    rw [houtput] at htext
    rw [hbefore, henqueued] at hentries
    exact ⟨_, htext, hentries⟩
  · have hring := (hinv.ring t).inv
    obtain ⟨i, e, hle, he, hqi, -⟩ := hring.nextRead hq
    exact hring.nextWrite hp (hring.mem_unconsumed.mpr
      ⟨i, hle, (List.getElem?_eq_some_iff.mp he).1, heq.trans hqi⟩)

/-! ## `stop` returns -/

/-- Without a step of `append` the logging thread gets past the ring whose turn it is. -/
def GetsPast (s : State D) (w : Turn) : Prop :=
  ∃ as s' empty, (∀ a ∈ as, a.thread = none) ∧ machine.run s as = some s' ∧
    s'.base.logger = w.next empty ∧ s'.base.stop = s.base.stop ∧
    s'.base.logRings = s.base.logRings

lemma GetsPast.cons {a : Act τ} (ha : a.thread = none) (hs : step s a = some s')
    (hbase : s'.base = s.base) (h : GetsPast s' w) : GetsPast s w := by
  obtain ⟨as, s'', empty, has, hrun, hlogger, hstop, hrings⟩ := h
  refine ⟨a :: as, s'', empty, fun b hb => ?_, machine.run_cons_eq_some.mpr ⟨s', hs, hrun⟩,
    hlogger, hstop.trans (by rw [hbase]), hrings.trans (by rw [hbase])⟩
  obtain rfl | hb := List.mem_cons.mp hb
  · exact ha
  · exact has b hb

lemma GetsPast.single {a : Act τ} (ha : a.thread = none) (hs : step s a = some s') {empty : Bool}
    (hlogger : s'.base.logger = w.next empty) (hstop : s'.base.stop = s.base.stop)
    (hrings : s'.base.logRings = s.base.logRings) : GetsPast s w :=
  ⟨[a], s', empty, fun b hb => by rwa [List.mem_singleton.mp hb],
    machine.run_cons_eq_some.mpr ⟨s', hs, rfl⟩, hlogger, hstop, hrings⟩

/-- It copies what is left and releases the slots. -/
lemma getsPast_copying {left : List (ℕ × ℕ)} (h : Inv s) (hturn : turn s.base = some w)
    {v : List (Option (LogRingEntry τ))} {base : ℕ} {i entries : BitVec 64}
    (hc : (s.rings w.thread).consumer = .copying v base i entries left) : GetsPast s w := by
  induction left generalizing s v with
  | nil =>
    obtain ⟨es, hmap⟩ : ∃ es, (v.drop base).mapM id = some es := by
      rw [((h.ring w.thread).copying hc).2 rfl, List.mapM_map]
      exact ⟨_, List.mapM_pure (m := Option) (f := id)⟩
    obtain ⟨s', hs, hlogger, hstop, hrings⟩ : ∃ s', step s .release = some s' ∧
        s'.base.logger = w.next false ∧ s'.base.stop = s.base.stop ∧
        s'.base.logRings = s.base.logRings := by
      simp only [step, hturn, Option.bind_eq_bind, Option.bind_some, State.consume, Spsc.consume,
        hc, hmap, Option.map_some]
      exact ⟨_, rfl, rfl, rfl, rfl⟩
    exact .single (a := .release) rfl hs hlogger hstop hrings
  | cons next left ih =>
    obtain ⟨d, p⟩ := next
    obtain ⟨s', v', hs, hbase, hc'⟩ : ∃ s' v', step s .copy = some s' ∧ s'.base = s.base ∧
        (s'.rings w.thread).consumer = .copying v' base i entries left := by
      simp only [step, hturn, Option.bind_eq_bind, Option.bind_some, State.consume, Spsc.consume,
        hc, Option.map_some]
      exact ⟨_, _, rfl, rfl, congrArg Spsc.State.consumer (State.setRing_self ..)⟩
    exact .cons (a := .copy) rfl hs hbase
      (ih (step_simulates h hs).1 (by rw [hbase, hturn]) hc')

/-- It finds out what is in the ring. -/
lemma getsPast_batchOut (h : Inv s) (hturn : turn s.base = some w)
    {v : List (Option (LogRingEntry τ))} {i : BitVec 64}
    (hc : (s.rings w.thread).consumer = .batchOut v i) : GetsPast s w := by
  by_cases hentries : (s.rings w.thread).ring.indexWrite - i = 0
  · obtain ⟨s', hs, hlogger, hstop, hrings⟩ : ∃ s', step s .loadWrite = some s' ∧
        s'.base.logger = w.next w.empty ∧ s'.base.stop = s.base.stop ∧
        s'.base.logRings = s.base.logRings := by
      simp only [step, hturn, Option.bind_eq_bind, Option.bind_some, State.consume, Spsc.consume,
        hc, hentries, if_true, Option.map_some, State.setRing_self]
      exact ⟨_, rfl, rfl, rfl, rfl⟩
    exact .single (a := .loadWrite) rfl hs hlogger hstop hrings
  · obtain ⟨s', v', base, entries, left, hs, hbase, hc'⟩ : ∃ s' v' base entries left,
        step s .loadWrite = some s' ∧ s'.base = s.base ∧
        (s'.rings w.thread).consumer = .copying v' base i entries left := by
      simp only [step, hturn, Option.bind_eq_bind, Option.bind_some, State.consume, Spsc.consume,
        hc, hentries, if_false, Option.map_some, State.setRing_self]
      exact ⟨_, _, _, _, _, rfl, rfl, congrArg Spsc.State.consumer (State.setRing_self ..)⟩
    exact .cons (a := .loadWrite) rfl hs hbase
      (getsPast_copying (step_simulates h hs).1 (by rw [hbase, hturn]) hc')

lemma getsPast (h : Inv s) (hturn : turn s.base = some w) : GetsPast s w := by
  have hb := (h.ring w.thread).batching
  cases hc : (s.rings w.thread).consumer with
  | idle =>
    obtain ⟨s', v, i, hs, hbase, hc'⟩ : ∃ s' v i, step s .batchOut = some s' ∧ s'.base = s.base ∧
        (s'.rings w.thread).consumer = .batchOut v i := by
      simp only [step, hturn, Option.bind_eq_bind, Option.bind_some, State.consume, Spsc.consume,
        hc, Spsc.Consumer.Free, if_true, Option.map_some]
      exact ⟨_, _, _, rfl, rfl, congrArg Spsc.State.consumer (State.setRing_self ..)⟩
    exact .cons (a := .batchOut) rfl hs hbase
      (getsPast_batchOut (step_simulates h hs).1 (by rw [hbase, hturn]) hc')
  | batchOut v i => exact getsPast_batchOut h hturn hc
  | copying v base i entries left => exact getsPast_copying h hturn hc
  | _ =>
    rw [hc] at hb
    cases hb

/-- The step of the logging thread between the rings. -/
lemma logger_progress (h : machine.Reachable (start size D d₀) s) (hturn : turn s.base = none)
    (hreq : s.base.stop.stopRequested = true) (hdone : s.base.logger ≠ .done) :
    ∃ b', step s (.shared .logger) = some { s with base := b' } ∧ b'.stop = s.base.stop ∧
      b'.logRings = s.base.logRings ∧
      LoggerState.remaining s.base.logRings.length b'.logger
        < LoggerState.remaining s.base.logRings.length s.base.logger := by
  obtain ⟨hinv, hview⟩ := run_simulates h
  have hidle : ∀ t, claims (s.rings t).consumer = 0 := fun t => by
    by_contra hne
    obtain ⟨w, hw, -⟩ := hinv.consumer t fun hc => hne (by rw [hc]; rfl)
    cases hturn.symm.trans hw
  rw [view_of_idle hidle] at hview
  have hacc : accessesRing s.base .logger = false := by rw [accessesRing, hturn]; rfl
  have hq := LoggerState.reachable_inv hview
  have hstarted : s.base.logger ≠ .notStarted := hq.called fun hc => by
    rw [show s.base.stop = .notCalled from hc] at hreq
    cases hreq
  obtain ⟨q, hq, hstop, hrings, -, hlt⟩ := LoggerState.loggerStep_progress hq.control hstarted hdone
  have hstep := step_withQueues hacc (queues s).ring (queues s).enqueued
  obtain ⟨b', hb', rfl⟩ := Option.map_eq_some_iff.mp (hstep.symm.trans hq)
  refine ⟨b', ?_, hstop, hrings, hlt hreq⟩
  simp only [step, hacc, hb', Bool.false_eq_true, if_false, Option.map_some]

/-- On its own the logging thread comes to its end. -/
lemma run_to_done (h : machine.Reachable (start size D d₀) s)
    (hreq : s.base.stop.stopRequested = true) :
    ∃ as s', (∀ a ∈ as, a.thread = none) ∧ machine.run s as = some s' ∧
      s'.base.logger = .done ∧ s'.base.stop = s.base.stop := by
  induction hm : LoggerState.remaining s.base.logRings.length s.base.logger
    using Nat.strong_induction_on generalizing s with
  | _ m ih =>
    by_cases hdone : s.base.logger = .done
    · exact ⟨[], s, by simp, rfl, hdone, rfl⟩
    have hinv := (run_simulates h).1
    -- The part up to the next ring or step of the loop.
    obtain ⟨as, s', has, hrun, hstop, hlt⟩ : ∃ as s', (∀ a ∈ as, a.thread = none) ∧
        machine.run s as = some s' ∧ s'.base.stop = s.base.stop ∧
        LoggerState.remaining s'.base.logRings.length s'.base.logger < m := by
      cases hturn : turn s.base with
      | some w =>
        obtain ⟨as, s', empty, has, hrun, hlogger, hstop, hrings⟩ := getsPast hinv hturn
        obtain ⟨hpc, hlt, -⟩ := turn_eq_some_iff.mp hturn
        refine ⟨as, s', has, hrun, hstop, ?_⟩
        rw [← hm, hlogger, hrings, hpc]
        simp only [Turn.next, LoggerState.remaining]
        omega
      | none =>
        obtain ⟨b', hstep, hstop, hrings, hlt⟩ := logger_progress h hturn hreq hdone
        refine ⟨[.shared .logger], _, ?_, machine.run_cons_eq_some.mpr ⟨_, hstep, rfl⟩, hstop, ?_⟩
        · intro a ha
          rw [List.mem_singleton.mp ha]
          rfl
        · rw [← hm]
          simp only [hrings]
          exact hlt
    obtain ⟨bs, s'', hbs, hrun', hdone', hstop'⟩ := ih _ hlt
      (Machine.Reachable.run machine h hrun) (by rw [hstop, hreq]) rfl
    refine ⟨as ++ bs, s'', fun a ha => ?_, ?_, hdone', hstop'.trans hstop⟩
    · exact (List.mem_append.mp ha).elim (has a) (hbs a)
    · rw [machine.run_append, hrun, Option.bind_some, hrun']

/-- **`stop` returns over the rings**: whatever the threads have done, and without an access of
theirs to a ring or to anything else, the logging thread gets through its rings and comes to its
end, and so does `stop`. -/
theorem rings_stop_returns (size : ℕ) (D : Datetime τ) (d₀ : D.State) (s : State D)
    (h : machine.Reachable (start size D d₀) s) (hstop : s.base.stop ≠ .notCalled) :
    ∃ as s', (∀ a ∈ as, a.thread = none) ∧ machine.run s as = some s' ∧
      s'.base.stop = .returned := by
  -- The steps of `stop` that are left before it joins the thread.
  obtain ⟨bs, s₁, hbs, hrun₁, hs₁⟩ : ∃ bs s₁, (∀ a ∈ bs, a.thread = none) ∧
      machine.run s bs = some s₁ ∧ (s₁.base.stop = .forced ∨ s₁.base.stop = .returned) := by
    cases hpc : s.base.stop with
    | notCalled => exact absurd hpc hstop
    | called =>
      refine ⟨[.shared .requestStop, .shared .forceFlush],
        { s with base := { s.base with stop := .forced, forceFlush := true } }, ?_, ?_, .inl rfl⟩
      · simp [Act.thread]
      · simp [machine, Machine.run, step, accessesRing, LoggerState.step, hpc]
    | requested =>
      refine ⟨[.shared .forceFlush],
        { s with base := { s.base with stop := .forced, forceFlush := true } }, ?_, ?_, .inl rfl⟩
      · simp [Act.thread]
      · simp [machine, Machine.run, step, accessesRing, LoggerState.step, hpc]
    | forced => exact ⟨[], s, by simp, rfl, .inl hpc⟩
    | returned => exact ⟨[], s, by simp, rfl, .inr hpc⟩
  rcases hs₁ with hforced | hreturned
  · obtain ⟨cs, s₂, hcs, hrun₂, hdone, hstop₂⟩ :=
      run_to_done (Machine.Reachable.run machine h hrun₁) (by rw [hforced]; rfl)
    have hjoin : machine.run s₂ [.shared .join]
        = some { s₂ with base := { s₂.base with stop := .returned } } := by
      simp [machine, Machine.run, step, accessesRing, LoggerState.step, hstop₂, hforced, hdone]
    refine ⟨bs ++ cs ++ [.shared .join], { s₂ with base := { s₂.base with stop := .returned } },
      fun a ha => ?_, ?_, rfl⟩
    · obtain ha | ha := List.mem_append.mp ha
      · exact (List.mem_append.mp ha).elim (hbs a) (hcs a)
      · rw [List.mem_singleton.mp ha]
        rfl
    · rw [machine.run_append, machine.run_append, hrun₁, Option.bind_some, hrun₂, Option.bind_some,
        hjoin]
  · exact ⟨bs, s₁, hbs, hrun₁, hreturned⟩

end Coring.Logging.RingLogger
