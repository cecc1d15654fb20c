import Coring.Logging.Invariant

/-!
# The logger loses and duplicates nothing

A run of the logger, from its construction over one `run` to the return of one `stop`.  What each
step keeps holds in every state reached; in the last one the rings, the backlogs and the writing
buffer hold nothing that `stop` has to account for, and the data handed to the file is the text
of all entries that were taken out.  Once a stop has been requested each step of the logging thread
brings it closer to its end (`loggerStep_progress`).
-/

namespace Coring.Logging.LoggerState

variable {τ : Type} {D : Datetime τ} {d₀ : D.State} {s s' : LoggerState D} {t : ℕ}

/-! ## Steps -/

structure Inv (d₀ : D.State) (s : LoggerState D) : Prop where
  data : Data d₀ s
  control : Control s
  returned : s.stop = .returned → s.logger = .done
  called : s.stop ≠ .notCalled → s.logger ≠ .notStarted

lemma inv_start (d₀ : D.State) : Inv d₀ (start D d₀) :=
  ⟨data_start d₀, control_start d₀, by simp [start], fun h => absurd rfl h⟩

/-- A step of `append` leaves the other parties alone, -/
lemma threadStep_frame {a : ThreadAct τ} (hs : s.threadStep t a = some s') :
    s'.stop = s.stop ∧ s'.logger = s.logger ∧ (∀ u, u ≠ t → s'.threads u = s.threads u) ∧
      (a ≠ .register → s'.logRings = s.logRings) := by
  have hother : ∀ pc u, u ≠ t → Function.update s.threads t pc u = s.threads u :=
    fun pc u hu => Function.update_of_ne hu ..
  cases a with
  | emplaceBack =>
    simp only [threadStep] at hs
    split at hs
    · obtain ⟨-, hs⟩ := Option.ite_none_right_eq_some.mp hs
      cases hs
      exact ⟨rfl, rfl, hother _, fun _ => rfl⟩
    · cases hs
  | register =>
    simp only [threadStep] at hs
    split at hs
    · cases hs
      exact ⟨rfl, rfl, hother _, fun h => absurd rfl h⟩
    · cases hs
  | _ =>
    simp only [threadStep] at hs
    split at hs
    · cases hs
      exact ⟨rfl, rfl, hother _, fun _ => rfl⟩
    · cases hs

/-- and so does one of the logging thread. -/
lemma loggerStep_frame (hs : s.loggerStep = some s') :
    s'.threads = s.threads ∧ s'.logRings = s.logRings ∧ s'.returned = s.returned ∧
      s'.before = s.before ∧ s'.stop = s.stop ∧ s.logger ≠ .notStarted ∧ s.logger ≠ .done := by
  cases hpc : s.logger <;> simp only [loggerStep, hpc] at hs
  all_goals repeat' split at hs
  all_goals first
    | cases hs; done
    | rw [← Option.some_inj.mp hs]; exact ⟨rfl, rfl, rfl, rfl, rfl, by simp, by simp⟩

/-- How many steps the logging thread has to go at most, once stop has been requested. -/
def remaining (rings : ℕ) : LoggerPc → ℕ
  | .notStarted | .done => 0
  | .clearForce last => 1 + loop last
  | .testFlushed last => 2 + loop last
  | .flush last => 3 + loop last
  | .format last => 4 + loop last
  | .clearSignal last | .testStop last _ => 5 + loop last
  | .testForce last _ => 6 + loop last
  | .testSignal last _ _ => 7 + loop last
  | .pass last ringsSize i _ => 8 + (ringsSize - i) + loop last
  | .poll last => 9 + rings + loop last
  | .setForce => 10 + rings
  | .test => 11 + rings
  | .wait => 12 + rings
where
  loop (last : Bool) : ℕ := if last then 0 else 12 + rings

/-- The step after a `poll`. -/
lemma return_remaining (rings : ℕ) (last : Bool) :
    (if last then LoggerPc.done else .wait) ≠ .notStarted ∧
      remaining rings (if last then LoggerPc.done else .wait)
        < 1 + remaining.loop rings last := by
  cases last with
  | false =>
    refine ⟨by simp, ?_⟩
    change 12 + rings < 1 + (12 + rings)
    omega
  | true => exact ⟨by simp, Nat.lt_succ_self 0⟩

/-- The logging thread is never stuck, and a stop request brings it closer to its end. -/
lemma loggerStep_progress (hc : Control s) (hstarted : s.logger ≠ .notStarted)
    (hdone : s.logger ≠ .done) :
    ∃ s', s.loggerStep = some s' ∧ s'.stop = s.stop ∧ s'.logRings = s.logRings ∧
      s'.logger ≠ .notStarted ∧ (s.stop.stopRequested = true →
        remaining s.logRings.length s'.logger < remaining s.logRings.length s.logger) := by
  have hrange := hc.inRange
  cases hpc : s.logger with
  | notStarted => exact absurd hpc hstarted
  | done => exact absurd hpc hdone
  | test =>
    simp only [loggerStep, hpc]
    split
    · exact ⟨_, rfl, rfl, rfl, by simp, fun _ => by simp only [remaining]; omega⟩
    · next hreq => exact ⟨_, rfl, rfl, rfl, by simp, fun h => absurd h hreq⟩
  | poll last =>
    simp only [loggerStep, hpc]
    exact ⟨_, rfl, rfl, rfl, by simp, fun _ => by simp only [remaining]; omega⟩
  | pass last n i e =>
    rw [hpc] at hrange
    simp only [loggerStep, hpc]
    split
    · next hi =>
      have hlt : i < s.logRings.length := Nat.lt_of_lt_of_le hi hrange.2
      have hget : s.logRings[i]? = some s.logRings[i] := List.getElem?_eq_getElem hlt
      simp only [hget]
      exact ⟨_, rfl, rfl, rfl, by simp, fun _ => by simp only [remaining]; omega⟩
    · exact ⟨_, rfl, rfl, rfl, by simp, fun _ => by simp only [remaining]; omega⟩
  | testSignal last n e =>
    simp only [loggerStep, hpc]
    split <;> exact ⟨_, rfl, rfl, rfl, by simp, fun _ => by simp only [remaining]; omega⟩
  | testForce last n =>
    simp only [loggerStep, hpc]
    split <;> exact ⟨_, rfl, rfl, rfl, by simp, fun _ => by simp only [remaining]; omega⟩
  | clearSignal last =>
    simp only [loggerStep, hpc]
    exact ⟨_, rfl, rfl, rfl, by simp, fun _ => by simp only [remaining]; omega⟩
  | testStop last n =>
    simp only [loggerStep, hpc]
    split
    · exact ⟨_, rfl, rfl, rfl, by simp, fun _ => by simp only [remaining]; omega⟩
    · next hreq => exact ⟨_, rfl, rfl, rfl, by simp, fun h => absurd h hreq⟩
  | format last =>
    have hreturn := return_remaining s.logRings.length last
    simp only [loggerStep, hpc]
    split
    · exact ⟨_, rfl, rfl, rfl, hreturn.1, fun _ => Nat.lt_of_lt_of_le hreturn.2
        (by simp only [remaining]; omega)⟩
    · exact ⟨_, rfl, rfl, rfl, by simp, fun _ => by simp only [remaining]; omega⟩
  | flush last =>
    have hreturn := return_remaining s.logRings.length last
    simp only [loggerStep, hpc]
    split
    · exact ⟨_, rfl, rfl, rfl, by simp, fun _ => by simp only [remaining]; omega⟩
    · exact ⟨_, rfl, rfl, rfl, hreturn.1, fun _ => Nat.lt_of_lt_of_le hreturn.2
        (by simp only [remaining]; omega)⟩
  | testFlushed last =>
    have hreturn := return_remaining s.logRings.length last
    simp only [loggerStep, hpc]
    split
    · exact ⟨_, rfl, rfl, rfl, by simp, fun _ => by simp only [remaining]; omega⟩
    · exact ⟨_, rfl, rfl, rfl, hreturn.1, fun _ => Nat.lt_of_lt_of_le hreturn.2
        (by simp only [remaining]; omega)⟩
  | clearForce last =>
    have hreturn := return_remaining s.logRings.length last
    simp only [loggerStep, hpc]
    exact ⟨_, rfl, rfl, rfl, hreturn.1, fun _ => hreturn.2⟩
  | wait =>
    simp only [loggerStep, hpc]
    exact ⟨_, rfl, rfl, rfl, by simp, fun _ => by simp only [remaining]; omega⟩
  | setForce =>
    simp only [loggerStep, hpc]
    refine ⟨_, rfl, rfl, rfl, by simp, fun _ => ?_⟩
    change 9 + s.logRings.length + 0 < 10 + s.logRings.length
    omega

lemma step_inv {a : Act τ} (h : Inv d₀ s) (hs : step s a = some s') : Inv d₀ s' := by
  cases a with
  | thread t a =>
    obtain ⟨hd, hc⟩ := threadStep_inv h.data h.control hs
    obtain ⟨hstop, hlogger, -, -⟩ := threadStep_frame hs
    exact ⟨hd, hc, by rw [hstop, hlogger]; exact h.returned,
      by rw [hstop, hlogger]; exact h.called⟩
  | run =>
    simp only [step] at hs
    split at hs
    · next hpc =>
      rw [← Option.some_inj.mp hs]
      have hstop : s.stop = .notCalled := by
        by_contra hne
        exact h.called hne hpc
      have hback := h.control.backlogs
      rw [hpc] at hback
      exact ⟨h.data.move (by rw [hpc]; rfl), Control.of_not_last trivial hback rfl,
        by simp [hstop], by simp⟩
    · cases hs
  | logger =>
    obtain ⟨hd, hc⟩ := loggerStep_inv h.data h.control hs
    have hstarted : s.logger ≠ .notStarted := fun hpc => by
      simp only [step, loggerStep, hpc] at hs
      cases hs
    have hdone : s.logger ≠ .done := fun hpc => by
      simp only [step, loggerStep, hpc] at hs
      cases hs
    obtain ⟨s'', hs'', hstop, -, hne, -⟩ := loggerStep_progress h.control hstarted hdone
    obtain rfl : s' = s'' := Option.some_inj.mp (hs.symm.trans hs'')
    exact ⟨hd, hc, fun hret => absurd (h.returned (hstop ▸ hret)) hdone, fun _ => hne⟩
  | callStop =>
    simp only [step] at hs
    split at hs
    · next hguard =>
      rw [← Option.some_inj.mp hs]
      obtain ⟨hd, hc⟩ := callStop_inv h.data h.control hguard.2
      exact ⟨hd, hc, by simp, fun _ => hguard.1⟩
    · cases hs
  | requestStop =>
    simp only [step] at hs
    split at hs
    · next hguard =>
      rw [← Option.some_inj.mp hs]
      obtain ⟨hd, hc⟩ := raise_inv h.data h.control .requested s.forceFlush (fun _ => rfl) id
      exact ⟨hd, hc, by simp, fun _ => h.called (by simp [hguard])⟩
    · cases hs
  | forceFlush =>
    simp only [step] at hs
    split at hs
    · next hguard =>
      rw [← Option.some_inj.mp hs]
      obtain ⟨hd, hc⟩ := raise_inv h.data h.control .forced true (fun _ => rfl)
        (fun _ => rfl)
      exact ⟨hd, hc, by simp, fun _ => h.called (by simp [hguard])⟩
    · cases hs
  | join =>
    simp only [step] at hs
    split at hs
    · next hguard =>
      rw [← Option.some_inj.mp hs]
      obtain ⟨hd, hc⟩ := raise_inv h.data h.control .returned s.forceFlush (fun _ => rfl) id
      exact ⟨hd, hc, fun _ => hguard.2, fun _ => h.called (by simp [hguard.1])⟩
    · cases hs

/-! ## Runs -/

lemma reachable_inv (h : machine.Reachable (start D d₀) s) : Inv d₀ s :=
  Machine.Reachable.invariant machine h (P := Inv d₀) (inv_start d₀) (fun _ _ _ => step_inv)

/-- **Nothing is lost and nothing is duplicated.**  When `stop` returns, the data handed to the
file is the text of a list of entries.  In this list each thread's entries are the first ones
it has appended, each once and in their order, and they include all entries for which `append`
had returned when `stop` was called. -/
theorem appended_written_once (D : Datetime τ) (d₀ : D.State) (s : LoggerState D)
    (h : machine.Reachable (start D d₀) s) (hstop : s.stop = .returned) :
    ∃ entries : List (ℕ × LogRingEntry τ),
      s.output = (D.writeAll d₀ (entries.map Prod.snd)).2 ∧
      ∀ t, s.before t <+: ofThread t entries ∧ ofThread t entries <+: s.enqueued t := by
  have hinv := reachable_inv h
  have hpc := hinv.returned hstop
  have hdrained : ∀ t, s.drained t = ofThread t s.flushed := fun t => by
    have hback := hinv.control.backlogs (by rw [hpc]; rfl)
    simp only [drained, pending, hinv.control.done hpc, hback, ite_self, List.append_nil]
  refine ⟨s.flushed, ?_, fun t => ⟨?_, ?_⟩⟩
  · obtain ⟨d, hw, -⟩ := hinv.data.written
    rw [hw]
  · rw [← hdrained t]
    exact hinv.control.swept t (by rw [hpc]; trivial)
  · rw [← hinv.data.conserved t, hdrained t]
    exact List.prefix_append _ _

/-- Time stamps that are numbers, written as such. -/
def numbers : Datetime ℕ := ⟨ℕ, fun _ ts => ts, fun d => (toString d).toList⟩

/-- An entry at a given time. -/
def entryAt (ts : ℕ) : LogRingEntry ℕ :=
  ⟨['a'], 7, .info, ts, [' ', ' ', ' ', '4', '2', ' '], ['x']⟩

end Coring.Logging.LoggerState
