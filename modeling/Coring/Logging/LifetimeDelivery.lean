import Coring.Logging.Delivery
import Coring.Logging.Lifetime

/-!
# What a lasting logger delivers

The logging thread and the rings of a logger behave as `Coring.Logging.Invariant` says, however
often the logger is stopped and run again: `Data` and `Control` survive every step of a life.
What a life adds is the relation between the entries appended since the last `run` and the ones
the first `stop` accounts for.  In a run of lasting steps nothing is appended to a logger between
its first `stop` and its end, so the two agree, and the last `poll` has written them all.
-/

namespace Coring.Logging

variable {τ : Type} {D : Datetime τ}

/-! ## What the parts of a step leave alone -/

namespace LoggerState

variable {d₀ : D.State} {s s' : LoggerState D} {t : ℕ}

lemma threadStep_leaves {a : ThreadAct τ} (hs : s.threadStep t a = some s') :
    s'.before = s.before ∧ (a ≠ .notifyOne → s'.returned = s.returned) := by
  cases a with
  | emplaceBack =>
    simp only [threadStep] at hs
    split at hs
    · obtain ⟨-, hs⟩ := Option.ite_none_right_eq_some.mp hs
      rw [← Option.some_inj.mp hs]
      exact ⟨rfl, fun _ => rfl⟩
    · cases hs
  | notifyOne =>
    simp only [threadStep] at hs
    split at hs
    · rw [← Option.some_inj.mp hs]
      exact ⟨rfl, fun h => absurd rfl h⟩
    · cases hs
  | _ =>
    simp only [threadStep] at hs
    split at hs
    · rw [← Option.some_inj.mp hs]
      exact ⟨rfl, fun _ => rfl⟩
    · cases hs

/-- `append` returns. -/
lemma threadStep_notifyOne {h : LogRingEntry τ} (hpc : s.threads t = .notifyOne h)
    (hs : s.threadStep t .notifyOne = some s') :
    s'.returned t = s.returned t ++ [h] ∧ s'.threads t = .idle := by
  simp only [threadStep, hpc] at hs
  rw [← Option.some_inj.mp hs]
  simp [setThread]

/-- A step of `append` other than its first is one of a thread that is in `append`. -/
lemma threads_of_threadStep {a : ThreadAct τ} (ha : ∀ h, a ≠ .append h)
    (hs : s.threadStep t a = some s') : s.threads t ≠ .idle := by
  intro hidle
  cases a with
  | append h => exact ha h rfl
  | _ =>
    simp only [threadStep, hidle] at hs
    cases hs

lemma advance_inv (hd : Data d₀ s) (hc : Control s) {pc pc' : StopPc} {f : Bool}
    (hpc : pc.stopRequested = true → pc'.stopRequested = true)
    (hf : s.forceFlush = true → f = true) :
    Data d₀ { s.advance pc pc' with forceFlush := f } ∧
      Control { s.advance pc pc' with forceFlush := f } := by
  unfold advance
  split
  · next heq => exact raise_inv hd hc pc' f (fun h => hpc (heq ▸ h)) hf
  · exact raise_inv hd hc s.stop f id hf

lemma advance_eq (s : LoggerState D) (pc pc' : StopPc) :
    s.advance pc pc' = { s with stop := if s.stop = pc then pc' else s.stop } := by
  unfold advance
  split <;> rfl

lemma advance_stop (s : LoggerState D) {pc pc' : StopPc} (h : s.stop ≠ .notCalled)
    (hpc' : pc' ≠ .notCalled) : (s.advance pc pc').stop ≠ .notCalled := by
  unfold advance
  split
  · exact hpc'
  · exact h

lemma enter_inv (hd : Data d₀ s) (hc : Control s) : Data d₀ s.enter ∧ Control s.enter := by
  unfold enter
  split
  · next hstop => exact callStop_inv hd hc hstop
  · exact ⟨hd, hc⟩

lemma enter_eq (s : LoggerState D) :
    s.enter = { s with
      stop := if s.stop = .notCalled then .called else s.stop
      before := if s.stop = .notCalled then s.returned else s.before } := by
  unfold enter
  split <;> rfl

lemma enter_stop (s : LoggerState D) : s.enter.stop ≠ .notCalled := by
  unfold enter
  split
  · simp
  · assumption

end LoggerState

/-! ## The invariant -/

namespace CallerPc

/-- In `append`, with a ring of an earlier logger. -/
def onOrphan : CallerPc τ → Bool
  | .emplaceBack _ | .notifyOne _ => true
  | _ => false

/-- In `stop`, or behind it. -/
def inStop : CallerPc τ → Bool
  | .requestStop _ | .forceFlush _ | .join _ | .stopped _ => true
  | _ => false

end CallerPc

namespace LoggerObject

/-- What holds of the present logger in a run of lasting steps, with the thread at `pc`. -/
structure Sound (pc : CallerPc τ) (o : LoggerObject D) : Prop where
  data : o.state.Data o.made
  control : o.state.Control
  joined : o.ran = true → o.joinable = true ∨ o.state.logger = .done
  unran : o.ran = false → o.since = [] ∧ o.state.logger = .notStarted
  counting : o.counting = true → o.ran = true ∧ o.joinable = true ∧
    (o.state.logger = .notStarted ∨ o.state.logger = .done)
  suffix : o.since <:+ o.state.returned 0
  /-- The first `stop` accounts for the entries of the only `run` that has any. -/
  accounted : o.state.stop ≠ .notCalled → o.since = [] ∨ o.state.before 0 = o.state.returned 0
  appending : o.state.threads 0 ≠ .idle → pc = .idle ∧ (o.ran = true → o.state.stop = .notCalled)
  orphaned : pc.onOrphan = true → o.ran = false
  called : pc.inStop = true → o.state.stop ≠ .notCalled
  unjoined : ∀ c, pc = .stopped c → o.joinable = false

variable {o : LoggerObject D} {pc : CallerPc τ} {s' : LoggerState D}

lemma sound_start (d : D.State) (pc : CallerPc τ) (hpc : pc.inStop = false) :
    Sound pc ({ state := .start D d, made := d } : LoggerObject D) where
  data := LoggerState.data_start d
  control := LoggerState.control_start d
  joined := fun h => absurd h Bool.false_ne_true
  unran := fun _ => ⟨rfl, rfl⟩
  counting := fun h => absurd h Bool.false_ne_true
  suffix := List.suffix_refl _
  accounted := fun h => absurd rfl h
  appending := fun h => absurd rfl h
  orphaned := fun _ => rfl
  called := fun h => absurd (hpc.symm.trans h) Bool.false_ne_true
  unjoined := fun _ _ => rfl

lemma atRest_iff : o.atRest pc = true ↔ pc = .idle ∧ o.state.threads 0 = .idle := by
  unfold atRest
  cases pc <;> cases o.state.threads 0 <;> simp

/-- The thread moves on outside of `stop`. -/
lemma Sound.goto (h : o.Sound pc) (hidle : o.state.threads 0 = .idle) {pc' : CallerPc τ}
    (horphan : pc'.onOrphan = true → o.ran = false) (hstop : pc'.inStop = false) :
    o.Sound pc' := by
  refine { h with
    appending := fun hne => absurd hidle hne
    orphaned := horphan
    called := fun hpc => absurd (hstop.symm.trans hpc) Bool.false_ne_true
    unjoined := fun c hc => ?_ }
  rw [hc] at hstop
  cases hstop

lemma record_of_not_ran (hran : o.ran = false) (e : LogRingEntry τ) : o.record e = o := by
  have hsince : (if o.ran then o.since ++ [e] else o.since) = o.since := by
    rw [hran]
    rfl
  rw [record, hsince]

/-- A step of `append` on a ring of the logger that does not return. -/
lemma Sound.threadStep {a : LoggerState.ThreadAct τ} (h : o.Sound .idle) (ha : a ≠ .notifyOne)
    (hstop : o.ran = true → o.state.stop = .notCalled)
    (hs : o.state.threadStep 0 a = some s') : Sound .idle { o with state := s' } := by
  obtain ⟨hd, hc⟩ := LoggerState.threadStep_inv h.data h.control hs
  obtain ⟨hst, hlg, -, -⟩ := LoggerState.threadStep_frame hs
  obtain ⟨hbef, hret⟩ := LoggerState.threadStep_leaves hs
  have hret := hret ha
  exact {
    data := hd
    control := hc
    joined := by simpa only [hlg] using h.joined
    unran := by simpa only [hlg] using h.unran
    counting := by simpa only [hlg] using h.counting
    suffix := by simpa only [hret] using h.suffix
    accounted := by simpa only [hst, hret, hbef] using h.accounted
    appending := fun _ => ⟨rfl, by simpa only [hst] using hstop⟩
    orphaned := fun hpc => absurd hpc Bool.false_ne_true
    called := fun hpc => absurd hpc Bool.false_ne_true
    unjoined := by simp }

/-- `append` returns. -/
lemma Sound.notifyOne {e : LogRingEntry τ} (h : o.Sound pc) (hpc : o.state.threads 0 = .notifyOne e)
    (hs : o.state.threadStep 0 .notifyOne = some s') :
    Sound pc { o.record e with state := s' } := by
  obtain ⟨hd, hc⟩ := LoggerState.threadStep_inv h.data h.control hs
  obtain ⟨hst, hlg, -, -⟩ := LoggerState.threadStep_frame hs
  obtain ⟨hret, hidle⟩ := LoggerState.threadStep_notifyOne hpc hs
  obtain ⟨-, hstop⟩ := h.appending (by simp [hpc])
  refine {
    data := hd
    control := hc
    joined := by simpa only [record, hlg] using h.joined
    unran := fun hran => ?_
    counting := by simpa only [record, hlg] using h.counting
    suffix := ?_
    accounted := fun hcalled => ?_
    appending := fun hne => absurd hidle hne
    orphaned := h.orphaned
    called := by simpa only [hst] using h.called
    unjoined := h.unjoined }
  · have hran' : o.ran = false := hran
    simp only [record, hran', Bool.false_eq_true, if_false, hlg]
    exact h.unran hran'
  · simp only [record, hret]
    split
    · obtain ⟨front, hfront⟩ := h.suffix
      exact ⟨front, by rw [← List.append_assoc, hfront]⟩
    · next hran =>
      rw [(h.unran (by simpa using hran)).1]
      exact List.nil_suffix
  · -- no entry counts after `stop` has been called
    cases hran : o.ran with
    | true =>
      simp only [hst] at hcalled
      exact absurd (hstop hran) hcalled
    | false =>
      left
      simp only [record, hran, Bool.false_eq_true, if_false]
      exact (h.unran hran).1

/-- A step of the logging thread. -/
lemma Sound.loggerStep (h : o.Sound pc) (hs : o.state.loggerStep = some s') :
    Sound pc { o with state := s' } := by
  obtain ⟨hd, hc⟩ := LoggerState.loggerStep_inv h.data h.control hs
  obtain ⟨hthreads, -, hret, hbef, hst, hstarted, hdone⟩ := LoggerState.loggerStep_frame hs
  exact {
    data := hd
    control := hc
    joined := fun hran => .inl ((h.joined hran).resolve_right hdone)
    unran := fun hran => absurd (h.unran hran).2 hstarted
    counting := fun hcount => absurd (h.counting hcount).2.2 (by simp [hstarted, hdone])
    suffix := by simpa only [hret] using h.suffix
    accounted := by simpa only [hst, hret, hbef] using h.accounted
    appending := by simpa only [hthreads, hst] using h.appending
    orphaned := h.orphaned
    called := by simpa only [hst] using h.called
    unjoined := h.unjoined }

/-- `stop` is called, by the program, by `run` or by the destructor. -/
lemma Sound.enter (h : o.Sound .idle) (hidle : o.state.threads 0 = .idle) (c : StopCaller) :
    Sound (.requestStop c) { o with state := o.state.enter } := by
  obtain ⟨hd, hc⟩ := LoggerState.enter_inv h.data h.control
  refine {
    data := hd
    control := hc
    joined := by simpa only [LoggerState.enter_eq] using h.joined
    unran := by simpa only [LoggerState.enter_eq] using h.unran
    counting := by simpa only [LoggerState.enter_eq] using h.counting
    suffix := by simpa only [LoggerState.enter_eq] using h.suffix
    accounted := fun _ => ?_
    appending := fun hne => absurd (by simpa only [LoggerState.enter_eq] using hidle) hne
    orphaned := fun hpc => absurd hpc Bool.false_ne_true
    called := fun _ => o.state.enter_stop
    unjoined := by simp }
  simp only [LoggerState.enter_eq]
  split
  · exact .inr rfl
  · next hstop => exact h.accounted hstop

/-- A step of `stop` before it joins the thread. -/
lemma Sound.advance (h : o.Sound pc) (hpc : pc.inStop = true) (pc' : CallerPc τ) (p p' : StopPc)
    (f : Bool) (hpc' : pc'.inStop = true) (hnot : ∀ c, pc' ≠ .stopped c)
    (hp : p.stopRequested = true → p'.stopRequested = true) (hp' : p' ≠ .notCalled)
    (hf : o.state.forceFlush = true → f = true) :
    Sound pc' { o with state := { o.state.advance p p' with forceFlush := f } } := by
  obtain ⟨hd, hc⟩ := LoggerState.advance_inv h.data h.control hp hf
  have hcalled := h.called hpc
  have hidle : o.state.threads 0 = .idle := by
    by_contra hne
    rw [(h.appending hne).1] at hpc
    cases hpc
  exact {
    data := hd
    control := hc
    joined := by simpa only [LoggerState.advance_eq] using h.joined
    unran := by simpa only [LoggerState.advance_eq] using h.unran
    counting := by simpa only [LoggerState.advance_eq] using h.counting
    suffix := by simpa only [LoggerState.advance_eq] using h.suffix
    accounted := fun _ => by simpa only [LoggerState.advance_eq] using h.accounted hcalled
    appending := fun hne => absurd (by simpa only [LoggerState.advance_eq] using hidle) hne
    orphaned := fun horphan => by
      cases pc' <;> first | cases horphan; done | cases hpc'
    called := fun _ => o.state.advance_stop hcalled hp'
    unjoined := fun c hc => absurd hc (hnot c) }

/-- `stop` has joined the thread, if there was one. -/
lemma Sound.join (h : o.Sound pc) (hpc : pc.inStop = true) (c : StopCaller)
    (hguard : o.joinable = true → o.counting = false ∧ o.state.logger = .done) :
    Sound (.stopped c)
      { o with joinable := false, state := o.state.advance .forced .returned } := by
  have hadv := h.advance hpc (.join c) .forced .returned
    (o.state.advance .forced .returned).forceFlush rfl (fun c' hc => by cases hc) (fun _ => rfl)
    (by simp) (fun hf => by simpa only [LoggerState.advance_eq] using hf)
  have hcounting : o.counting = false := by
    rw [← Bool.not_eq_true]
    intro hcount
    obtain ⟨hfalse, -⟩ := hguard (h.counting hcount).2.1
    rw [hcount] at hfalse
    cases hfalse
  exact {
    data := hadv.data
    control := hadv.control
    joined := fun hran => .inr (by
      rw [LoggerState.advance_eq]
      rcases h.joined hran with hjoin | hdone
      · exact (hguard hjoin).2
      · exact hdone)
    unran := hadv.unran
    counting := fun hcount => absurd (hcounting.symm.trans hcount) Bool.false_ne_true
    suffix := hadv.suffix
    accounted := hadv.accounted
    appending := fun hne => by cases (hadv.appending hne).1
    orphaned := fun horphan => absurd horphan Bool.false_ne_true
    called := fun _ => hadv.called rfl
    unjoined := fun _ _ => rfl }

/-- `run` creates the thread, when there is none. -/
lemma Sound.startThread (h : o.Sound pc) (hidle : o.state.threads 0 = .idle)
    (hjoin : o.joinable = false) : Sound .wait o.startThread where
  data := h.data
  control := h.control
  joined := fun _ => .inl rfl
  unran := fun hran => absurd hran.symm Bool.false_ne_true
  counting := fun _ => ⟨rfl, rfl, by
    cases hran : o.ran with
    | false => exact .inl (h.unran hran).2
    | true =>
      rcases h.joined hran with hj | hdone
      · exact absurd (hjoin.symm.trans hj) Bool.false_ne_true
      · exact .inr hdone⟩
  suffix := List.nil_suffix
  accounted := fun _ => .inl rfl
  appending := fun hne => absurd hidle hne
  orphaned := fun horphan => absurd horphan Bool.false_ne_true
  called := fun hcalled => absurd hcalled Bool.false_ne_true
  unjoined := fun c hc => by cases hc

/-- The new thread enters the loop. -/
lemma Sound.countDown (h : o.Sound pc) (hcount : o.counting = true) :
    Sound pc { o with
      counting := false, latch := o.latch - 1, state := { o.state with logger := .test } } := by
  obtain ⟨hran, hjoin, hlogger⟩ := h.counting hcount
  have hhanded : LoggerPc.test.handed = o.state.logger.handed := by
    rcases hlogger with hpc | hpc <;> rw [hpc] <;> rfl
  have hback : o.state.backlogs = [] := by
    apply h.control.backlogs
    rcases hlogger with hpc | hpc <;> rw [hpc] <;> rfl
  exact {
    data := h.data.move hhanded
    control := LoggerState.Control.of_not_last trivial (fun _ => hback) rfl
    joined := fun _ => .inl hjoin
    unran := fun hfalse => absurd (hfalse.symm.trans hran) Bool.false_ne_true
    counting := fun hfalse => absurd hfalse Bool.false_ne_true
    suffix := h.suffix
    accounted := h.accounted
    appending := h.appending
    orphaned := h.orphaned
    called := h.called
    unjoined := h.unjoined }

/-- When `stop` has returned, the entries that count are in the file. -/
lemma Sound.delivered {c : StopCaller} (h : o.Sound (.stopped c)) :
    ∃ entries : List (ℕ × LogRingEntry τ),
      o.state.output = (D.writeAll o.made (entries.map Prod.snd)).2 ∧
      o.since <:+ ofThread 0 entries := by
  obtain ⟨d, hwritten, -⟩ := h.data.written
  refine ⟨o.state.flushed, by rw [hwritten], ?_⟩
  rcases h.accounted (h.called rfl) with hnil | hbefore
  · rw [hnil]
    exact List.nil_suffix
  · cases hran : o.ran with
    | false =>
      rw [(h.unran hran).1]
      exact List.nil_suffix
    | true =>
      have hdone : o.state.logger = .done :=
        (h.joined hran).resolve_left (by rw [h.unjoined c rfl]; exact Bool.false_ne_true)
      have hidle : o.state.threads 0 = .idle := by
        by_contra hne
        cases (h.appending hne).1
      have hdrained : o.state.drained 0 = ofThread 0 o.state.flushed := by
        have hback := h.control.backlogs (by rw [hdone]; rfl)
        simp only [LoggerState.drained, LoggerState.pending, h.control.done hdone, hback, ite_self,
          List.append_nil]
      have henq : o.state.enqueued 0 = o.state.returned 0 := by
        have hok := h.data.threads 0
        rw [hidle] at hok
        exact hok
      -- everything returned was swept, and nothing else has been enqueued
      have hswept : o.state.returned 0 <+: ofThread 0 o.state.flushed := by
        rw [← hbefore, ← hdrained]
        exact h.control.swept 0 (by rw [hdone]; trivial)
      have hle : ofThread 0 o.state.flushed <+: o.state.returned 0 := by
        rw [← henq, ← h.data.conserved 0, hdrained]
        exact List.prefix_append _ _
      rw [← hswept.eq_of_length_le hle.length_le]
      exact h.suffix

end LoggerObject

/-! ## Runs -/

namespace Life

variable {l l' : Life D} {o : LoggerObject D} {a : Act D}

/-- The present logger is sound. -/
def Inv (l : Life D) : Prop := ∀ o, l.object = some o → o.Sound l.caller

/-- Outside of an `append` to a ring of the logger. -/
lemma Inv.idle (h : l.Inv) (hobj : l.object = some o) (hpc : l.caller ≠ .idle) :
    o.state.threads 0 = .idle := by
  by_contra hthread
  exact hpc ((h o hobj).appending hthread).1

lemma append_inv (h : l.Inv) (hobj : l.object = some o) {e : LogRingEntry τ}
    (hlast : o.ran = true → l.orphan = none ∧ o.state.stop = .notCalled)
    (hs : l.append o e = some l') : l'.Inv := by
  unfold append at hs
  obtain ⟨hrest, hs⟩ := Option.ite_none_right_eq_some.mp hs
  obtain ⟨hpc, hidle⟩ := LoggerObject.atRest_iff.mp hrest
  have hsound := h o hobj
  rw [hpc] at hsound
  split at hs
  · obtain ⟨s', hs', rfl⟩ := Option.map_eq_some_iff.mp hs
    rintro o' ⟨⟩
    change LoggerObject.Sound l.caller _
    rw [hpc]
    exact hsound.threadStep (fun ha => by cases ha) (fun hran => (hlast hran).2) hs'
  · next q horphan =>
    cases hs
    intro o' ho'
    obtain rfl : o = o' := Option.some_inj.mp (hobj.symm.trans ho')
    refine hsound.goto hidle (fun _ => ?_) rfl
    rw [← Bool.not_eq_true]
    intro hran
    rw [(hlast hran).1] at horphan
    cases horphan

lemma threadStep_inv (h : l.Inv) (hobj : l.object = some o) {b : LoggerState.ThreadAct τ}
    (hs : l.threadStep o b = some l') : l'.Inv := by
  have hsound := h o hobj
  have hkeep : ∀ b : LoggerState.ThreadAct τ, (∀ e, b ≠ .append e) → b ≠ .notifyOne →
      ∀ s', o.state.threadStep 0 b = some s' → (l.withState o s').Inv := by
    rintro b happend hnotify s' hs' o' ⟨⟩
    obtain ⟨hpc, hstop⟩ := hsound.appending (LoggerState.threads_of_threadStep happend hs')
    change LoggerObject.Sound l.caller _
    rw [hpc] at hsound ⊢
    exact hsound.threadStep hnotify hstop hs'
  unfold threadStep at hs
  split at hs
  · cases hs
  · split at hs
    · next e hthread =>
      obtain ⟨s', hs', rfl⟩ := Option.map_eq_some_iff.mp hs
      rintro o' ⟨⟩
      exact hsound.notifyOne hthread hs'
    · cases hs
  · next happend hnotify =>
    obtain ⟨s', hs', rfl⟩ := Option.map_eq_some_iff.mp hs
    exact hkeep b happend hnotify s' hs'

lemma orphanStep_inv (h : l.Inv) (hobj : l.object = some o) (hs : l.orphanStep o = some l') :
    l'.Inv := by
  have hsound := h o hobj
  unfold orphanStep at hs
  split at hs
  · next e ring hpc horphan =>
    obtain ⟨-, hs⟩ := Option.ite_none_right_eq_some.mp hs
    cases hs
    intro o' ho'
    obtain rfl : o = o' := Option.some_inj.mp (hobj.symm.trans ho')
    have hidle := h.idle hobj (by simp [hpc])
    exact hsound.goto hidle (fun _ => hsound.orphaned (by rw [hpc]; rfl)) rfl
  · next e ring hpc =>
    cases hs
    rintro o' ⟨⟩
    have hran := hsound.orphaned (by rw [hpc]; rfl)
    rw [LoggerObject.record_of_not_ran hran]
    exact hsound.goto (h.idle hobj (by simp [hpc])) (fun _ => hran) rfl
  · cases hs

lemma enterStop_inv (h : l.Inv) (hobj : l.object = some o) (hrest : o.atRest l.caller = true)
    (c : StopCaller) : (l.enterStop o c).Inv := by
  obtain ⟨hpc, hidle⟩ := LoggerObject.atRest_iff.mp hrest
  have hsound := h o hobj
  rw [hpc] at hsound
  rintro o' ⟨⟩
  exact hsound.enter hidle c

lemma run_inv (h : l.Inv) (hobj : l.object = some o) (hs : l.run o = some l') : l'.Inv := by
  unfold run at hs
  obtain ⟨hrest, hs⟩ := Option.ite_none_right_eq_some.mp hs
  split at hs
  · cases hs
    exact enterStop_inv h hobj hrest .run
  · next hjoin =>
    cases hs
    rintro o' ⟨⟩
    exact (h o hobj).startThread (LoggerObject.atRest_iff.mp hrest).2 (by simpa using hjoin)

lemma stopStep_inv (h : l.Inv) (hobj : l.object = some o) (hs : l.stopStep o = some l') :
    l'.Inv := by
  have hsound := h o hobj
  unfold stopStep at hs
  split at hs
  · next c hpc =>
    cases hs
    rintro o' ⟨⟩
    exact hsound.advance (by rw [hpc]; rfl) (.forceFlush c) .called .requested
      (o.state.advance .called .requested).forceFlush rfl (fun c' hc => by cases hc)
      (fun _ => rfl) (by simp) (fun hf => by simpa only [LoggerState.advance_eq] using hf)
  · next c hpc =>
    cases hs
    rintro o' ⟨⟩
    exact hsound.advance (by rw [hpc]; rfl) (.join c) .requested .forced true rfl
      (fun c' hc => by cases hc) (fun _ => rfl) (by simp) (fun _ => rfl)
  · next c hpc =>
    obtain ⟨hguard, hs⟩ := Option.ite_none_right_eq_some.mp hs
    cases hs
    rintro o' ⟨⟩
    exact hsound.join (by rw [hpc]; rfl) c hguard
  · cases hs

lemma proceed_inv (h : l.Inv) (hobj : l.object = some o) (hs : l.proceed o = some l') :
    l'.Inv := by
  have hsound := h o hobj
  unfold proceed at hs
  split at hs
  · next hpc =>
    cases hs
    intro o' ho'
    obtain rfl : o = o' := Option.some_inj.mp (hobj.symm.trans ho')
    exact hsound.goto (h.idle hobj (by simp [hpc])) (fun hfalse => by cases hfalse) rfl
  · next hpc =>
    cases hs
    rintro o' ⟨⟩
    exact hsound.startThread (h.idle hobj (by simp [hpc])) (hsound.unjoined .run hpc)
  · cases hs
    rintro o' ⟨⟩
  · cases hs

lemma step_inv (h : l.Inv) (hlast : Lasting l a = true) (hs : step l a = some l') : l'.Inv := by
  unfold step at hs
  split at hs
  · next o hobj =>
    have hsound := h o hobj
    cases a with
    | construct d => cases hs
    | append e =>
      refine append_inv h hobj (fun hran => ?_) hs
      simpa [Lasting, hobj, hran] using hlast
    | thread b => exact threadStep_inv h hobj hs
    | orphan => exact orphanStep_inv h hobj hs
    | run => exact run_inv h hobj hs
    | stop =>
      obtain ⟨hrest, hs⟩ := Option.ite_none_right_eq_some.mp hs
      cases hs
      exact enterStop_inv h hobj hrest .program
    | destroy =>
      obtain ⟨hrest, hs⟩ := Option.ite_none_right_eq_some.mp hs
      cases hs
      exact enterStop_inv h hobj hrest .destructor
    | stopping => exact stopStep_inv h hobj hs
    | proceed => exact proceed_inv h hobj hs
    | countDown =>
      obtain ⟨hcount, hs⟩ := Option.ite_none_right_eq_some.mp hs
      cases hs
      rintro o' ⟨⟩
      exact hsound.countDown hcount
    | wait =>
      simp only [objectStep] at hs
      split at hs
      · next hpc =>
        obtain ⟨-, hs⟩ := Option.ite_none_right_eq_some.mp hs
        cases hs
        intro o' ho'
        obtain rfl : o = o' := Option.some_inj.mp (hobj.symm.trans ho')
        exact hsound.goto (h.idle hobj (by simp [hpc])) (fun hfalse => by cases hfalse) rfl
      · cases hs
    | logger =>
      obtain ⟨s', hs', rfl⟩ := Option.map_eq_some_iff.mp hs
      rintro o' ⟨⟩
      exact hsound.loggerStep hs'
  · split at hs
    · next d =>
      unfold construct at hs
      split at hs
      · next hpc =>
        cases hs
        rintro o' ⟨⟩
        exact LoggerObject.sound_start d l.caller (by rw [hpc]; rfl)
      · cases hs
    · cases hs

/-- **The logger across lifetimes.**  In every run whose entries are appended in a lasting way,
each return of `stop` finds the entries since the last `run` in the file. -/
theorem delivered_of_lasting (as : List (Act D))
    (h : machine.Each (fun l a => Lasting l a = true) ({} : Life D) as) :
    machine.Always Delivered ({} : Life D) as := by
  have hempty : Inv ({} : Life D) := fun o ho => by cases ho
  have halways := machine.always_of_each (fun l a l' hl ha hs => step_inv hl ha hs) hempty h
  refine machine.always_mono (fun l hl o c hobj hpc => ?_) halways
  have hsound := hl o hobj
  rw [hpc] at hsound
  exact hsound.delivered

/-- A logger runs and is given an entry by a thread without a ring. -/
def firstEntry : List (Act LoggerState.numbers) :=
  [.construct (0 : ℕ), .run, .countDown, .wait, .append (LoggerState.entryAt 1), .thread .register,
    .thread .signal, .thread .emplaceBack, .thread .notifyOne]

/-- `stop`, with this many steps of the logging thread before it is joined. -/
def stopAfter (n : ℕ) : List (Act LoggerState.numbers) :=
  [.stopping, .stopping] ++ List.replicate n .logger ++ [.stopping]

theorem delivered_of_lasting_firstEntry :
    ∃ (l : Life LoggerState.numbers) (o : LoggerObject LoggerState.numbers),
      machine.run {} (firstEntry ++ .stop :: stopAfter 11) = some l ∧ l.object = some o ∧
      o.since = [LoggerState.entryAt 1] ∧
      ∃ entries : List (ℕ × LogRingEntry ℕ),
        o.state.output = (LoggerState.numbers.writeAll o.made (entries.map Prod.snd)).2 ∧
        o.since <:+ ofThread 0 entries := by
  have hlasting : machine.Each (fun l a => Lasting l a = true) ({} : Life LoggerState.numbers)
      (firstEntry ++ .stop :: stopAfter 11) := by decide +kernel
  have hrun : (machine.run ({} : Life LoggerState.numbers)
      (firstEntry ++ .stop :: stopAfter 11)).bind
      (fun l => l.object.map fun o => (l.caller, o.since))
      = some (.stopped .program, [LoggerState.entryAt 1]) := by decide +kernel
  obtain ⟨l, hl, hobj⟩ := Option.bind_eq_some_iff.mp hrun
  obtain ⟨o, ho, heq⟩ := Option.map_eq_some_iff.mp hobj
  rw [Prod.mk.injEq] at heq
  have hdelivered := machine.always_run (delivered_of_lasting _ hlasting) hl
  exact ⟨l, o, hl, ho, heq.2, hdelivered o _ ho heq.1⟩

/-- The logger is destroyed, and the thread gives an entry to the next one. -/
def secondLogger : List (Act LoggerState.numbers) :=
  firstEntry ++ .destroy :: stopAfter 11 ++
  [.proceed, .construct (0 : ℕ), .run, .countDown, .wait, .append (LoggerState.entryAt 2), .orphan,
    .orphan, .stop] ++ stopAfter 7

/-- The ring of the thread is still that of the first logger, and when `stop` returns the second one
has written nothing. -/
theorem not_delivered_by_second_logger :
    ¬ machine.Always Delivered ({} : Life LoggerState.numbers) secondLogger := by
  intro h
  have hrun : (machine.run ({} : Life LoggerState.numbers) secondLogger).bind
      (fun l => l.object.map fun o => (l.caller, o.since, o.state.output))
      = some (.stopped .program, [LoggerState.entryAt 2], []) := by decide +kernel
  obtain ⟨l, hl, hobj⟩ := Option.bind_eq_some_iff.mp hrun
  obtain ⟨o, ho, heq⟩ := Option.map_eq_some_iff.mp hobj
  simp only [Prod.mk.injEq] at heq
  obtain ⟨hpc, hsince, houtput⟩ := heq
  obtain ⟨entries, htext, hsuffix⟩ := machine.always_run h hl o _ ho hpc
  rw [houtput] at htext
  have hnil := List.map_eq_nil_iff.mp (Datetime.writeAll_eq_nil htext.symm)
  rw [hnil, hsince] at hsuffix
  exact absurd hsuffix (by decide)

end Life

end Coring.Logging
