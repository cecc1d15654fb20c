import Coring.Logging.AsyncLogger
import Mathlib.Data.List.Infix

/-!
# Where the entries are

An entry passes from the ring of its thread to the backlogs of a `poll`, from there as text to
the writing buffer, and with the buffer to the file.  Nothing is lost on the way: the entries of
a thread in these places, put together, are always what the thread has enqueued (`conserved`).

`Control` is about the logging thread, and mostly about its last `poll`.  That begins when `stop`
has been called, so all rings with an entry to account for are registered, and `force_flush_` is
set until the buffer has been handed over, so that one pass over the rings is followed by one
write.  This file shows that each step of each party keeps both.
-/

namespace Coring.Logging

variable {τ : Type} {D : Datetime τ}

/-! ## Text -/

namespace Datetime

lemma writeAll_append (d : D.State) (hs hs' : List (LogRingEntry τ)) :
    D.writeAll d (hs ++ hs') = ((D.writeAll (D.writeAll d hs).1 hs').1,
      (D.writeAll d hs).2 ++ (D.writeAll (D.writeAll d hs).1 hs').2) := by
  induction hs generalizing d with
  | nil => rfl
  | cons h hs ih => simp only [List.cons_append, writeAll, ih, List.append_assoc]

/-- Every entry leaves a trace. -/
lemma writeAll_eq_nil {d : D.State} {hs : List (LogRingEntry τ)} (h : (D.writeAll d hs).2 = []) :
    hs = [] := by
  cases hs with
  | nil => rfl
  | cons e es =>
    simp only [writeAll, write, List.append_eq_nil_iff] at h
    exact absurd h.1.1.2 (List.cons_ne_nil _ _)

end Datetime

/-! ## The entries of a thread -/

/-- The entries of a thread, in their order. -/
def ofThread (t : ℕ) (l : List (ℕ × LogRingEntry τ)) : List (LogRingEntry τ) :=
  (l.filter fun x => x.1 = t).map Prod.snd

@[simp] lemma ofThread_append (t : ℕ) (l l' : List (ℕ × LogRingEntry τ)) :
    ofThread t (l ++ l') = ofThread t l ++ ofThread t l' := by
  rw [ofThread, List.filter_append, List.map_append]
  rfl

lemma ofThread_map_self (t : ℕ) (hs : List (LogRingEntry τ)) :
    ofThread t (hs.map fun h => (t, h)) = hs := by
  simp [ofThread, List.filter_map, Function.comp_def]

lemma ofThread_map_of_ne {t u : ℕ} (h : u ≠ t) (hs : List (LogRingEntry τ)) :
    ofThread t (hs.map fun h => (u, h)) = [] := by
  simp [ofThread, List.filter_map, Function.comp_def, h]

/-! ## The invariant -/

/-- What a thread in `append` may rely on. -/
def AppendPc.Ok (t : ℕ) (rings : List ℕ) (enqueued returned : List (LogRingEntry τ)) :
    AppendPc τ → Prop
  | .idle | .register _ => enqueued = returned
  | .signal _ | .emplaceBack _ => t ∈ rings ∧ enqueued = returned
  | .notifyOne h => enqueued = returned ++ [h]

namespace LoggerPc

/-- The writing buffer has been handed over and not been cleared. -/
def handed : LoggerPc → Bool
  | .testFlushed _ | .clearForce _ => true
  | _ => false

/-- There may be backlogs. -/
def hasBacklogs : LoggerPc → Bool
  | .pass .. | .testSignal .. | .testForce .. | .clearSignal _ | .testStop .. | .format _ => true
  | _ => false

/-- The passes stay within the rings. -/
def InRange (n : ℕ) : LoggerPc → Prop
  | .pass _ ringsSize i _ => i ≤ ringsSize ∧ ringsSize ≤ n
  | .testSignal _ ringsSize _ | .testForce _ ringsSize | .testStop _ ringsSize => ringsSize ≤ n
  | _ => True

/-- The loop has ended. -/
def isLast : LoggerPc → Bool
  | .poll last | .pass last .. | .testSignal last .. | .testForce last _ | .clearSignal last
  | .testStop last _ | .format last | .flush last | .testFlushed last | .clearForce last => last
  | .setForce | .done => true
  | .notStarted | .test | .wait => false

/-- The buffer will be handed over. -/
def forced : LoggerPc → Bool
  | .poll last | .pass last .. | .testSignal last .. | .testForce last _ | .clearSignal last
  | .testStop last _ | .format last | .flush last => last
  | _ => false

/-- The last `poll` has emptied the ring of a thread. -/
def Swept (rings : List ℕ) (t : ℕ) : LoggerPc → Prop
  | .pass last _ i _ => last = true ∧ t ∈ rings.take i
  | .testSignal last .. | .testForce last _ | .clearSignal last | .testStop last _ | .format last
  | .flush last | .testFlushed last | .clearForce last => last = true
  | .done => True
  | _ => False

lemma isLast_of_forced {pc : LoggerPc} (h : pc.forced = true) : pc.isLast = true := by
  cases pc <;> first | exact h | cases h

lemma isLast_of_swept {pc : LoggerPc} {rings : List ℕ} {t : ℕ} (h : pc.Swept rings t) :
    pc.isLast = true := by
  cases pc with
  | pass last n i e => exact h.1
  | notStarted => cases h
  | test => cases h
  | poll last => cases h
  | wait => cases h
  | setForce => rfl
  | done => rfl
  | _ => exact h

end LoggerPc

namespace LoggerState

/-- The entries in the writing buffer that are not in the file yet. -/
def pending (s : LoggerState D) : List (ℕ × LogRingEntry τ) :=
  if s.logger.handed then [] else s.buffered

/-- The entries of a thread that have been taken out of its ring. -/
def drained (s : LoggerState D) (t : ℕ) : List (LogRingEntry τ) :=
  ofThread t (s.flushed ++ s.pending ++ s.backlogs)

/-- What holds of the entries. -/
structure Data (d₀ : D.State) (s : LoggerState D) : Prop where
  conserved : ∀ t, s.drained t ++ s.ring t = s.enqueued t
  registered : ∀ t, t ∉ s.logRings → s.enqueued t = []
  threads : ∀ t, (s.threads t).Ok t s.logRings (s.enqueued t) (s.returned t)
  before : ∀ t, s.before t <+: s.enqueued t
  /-- The data handed over and the writing buffer are the text of their entries. -/
  written : ∃ d, D.writeAll d₀ (s.flushed.map Prod.snd) = (d, s.output) ∧
    D.writeAll d (s.pending.map Prod.snd)
      = (s.datetime, if s.logger.handed then [] else s.writingBuffer)

/-- What holds of the logging thread. -/
structure Control (s : LoggerState D) : Prop where
  inRange : s.logger.InRange s.logRings.length
  backlogs : s.logger.hasBacklogs = false → s.backlogs = []
  requested : s.logger.isLast = true → s.stop.stopRequested = true
  force : s.logger.forced = true → s.forceFlush = true
  /-- The last `poll` makes one pass, -/
  once : ∀ ringsSize, s.logger ≠ .testStop true ringsSize
  /-- over all rings with an entry to account for. -/
  covered : ∀ ringsSize i empty, s.logger = .pass true ringsSize i empty →
    ∀ t, s.before t ≠ [] → t ∈ s.logRings.take ringsSize
  swept : ∀ t, s.logger.Swept s.logRings t → s.before t <+: s.drained t
  done : s.logger = .done → s.buffered = []

variable {d₀ : D.State} {s s' : LoggerState D} {t : ℕ}

lemma data_start (d₀ : D.State) : Data d₀ (start D d₀) where
  conserved := fun _ => rfl
  registered := fun _ _ => rfl
  threads := fun _ => rfl
  before := fun _ => List.prefix_refl _
  written := ⟨d₀, rfl, rfl⟩

/-- In the loop there is nothing to show about the last `poll`. -/
lemma Control.of_not_last (hrange : s.logger.InRange s.logRings.length)
    (hback : s.logger.hasBacklogs = false → s.backlogs = []) (hlast : s.logger.isLast = false) :
    Control s := by
  have hne : ∀ pc : LoggerPc, pc.isLast = true → s.logger ≠ pc := by
    rintro pc hpc rfl
    rw [hlast] at hpc
    cases hpc
  exact {
    inRange := hrange
    backlogs := hback
    requested := fun h => absurd rfl (hne _ h)
    force := fun h => absurd rfl (hne _ (LoggerPc.isLast_of_forced h))
    once := fun n => hne _ rfl
    covered := fun n i e h => absurd h (hne _ rfl)
    swept := fun t h => absurd rfl (hne _ (LoggerPc.isLast_of_swept h))
    done := fun h => absurd h (hne _ rfl) }

lemma control_start (d₀ : D.State) : Control (start D d₀) :=
  Control.of_not_last trivial (fun _ => rfl) rfl

/-! ## Steps of `append` -/

/-- A step of a thread that enqueues nothing. -/
lemma Data.withThread (h : Data d₀ s) {rings : List ℕ} (hrings : s.logRings <+: rings) {b : Bool}
    {pc : AppendPc τ} {returned : ℕ → List (LogRingEntry τ)}
    (hret : ∀ u, u ≠ t → returned u = s.returned u)
    (hpc : pc.Ok t rings (s.enqueued t) (returned t)) :
    Data d₀ { s.setThread t pc with logRings := rings, signal := b, returned := returned } where
  conserved := h.conserved
  registered := fun u hu => h.registered u fun hmem => hu (hrings.subset hmem)
  threads := by
    intro u
    by_cases hu : u = t
    · subst hu
      simp only [setThread, Function.update_self]
      exact hpc
    · simp only [setThread, Function.update_of_ne hu, hret u hu]
      have hok := h.threads u
      cases hthread : s.threads u with
      | signal e => rw [hthread] at hok; exact ⟨hrings.subset hok.1, hok.2⟩
      | emplaceBack e => rw [hthread] at hok; exact ⟨hrings.subset hok.1, hok.2⟩
      | _ => rw [hthread] at hok; exact hok
  before := h.before
  written := h.written

/-- More rings do not matter to a pass that has begun. -/
lemma Control.withRings (h : Control s) {rings : List ℕ} (hrings : s.logRings <+: rings)
    {threads : ℕ → AppendPc τ} {b : Bool} {ring enqueued returned : ℕ → List (LogRingEntry τ)} :
    Control { s with
      threads := threads, logRings := rings, signal := b, ring := ring, enqueued := enqueued,
      returned := returned } where
  inRange := by
    have hr := h.inRange
    have hle := hrings.length_le
    change s.logger.InRange rings.length
    cases hpc : s.logger <;> simp only [hpc, LoggerPc.InRange] at hr ⊢ <;> omega
  backlogs := h.backlogs
  requested := h.requested
  force := h.force
  once := h.once
  covered := fun n i e hpc t ht => (hrings.take n).subset (h.covered n i e hpc t ht)
  swept := by
    intro t hswept
    refine h.swept t ?_
    change s.logger.Swept rings t at hswept
    cases hpc : s.logger with
    | pass last n i e =>
      have hr := h.inRange
      rw [hpc] at hr hswept
      have heq : s.logRings.take i = rings.take i :=
        (hrings.take i).eq_of_length_le (by
          have := hr.1
          have := hr.2
          rw [List.length_take, List.length_take]
          omega)
      exact ⟨hswept.1, heq ▸ hswept.2⟩
    | _ => rw [hpc] at hswept; exact hswept
  done := h.done

/-- An entry is put into the ring of its thread. -/
lemma Data.emplaceBack (h : Data d₀ s) {e : LogRingEntry τ} (ht : s.threads t = .emplaceBack e) :
    Data d₀ { s.setThread t (.notifyOne e) with
      ring := Function.update s.ring t (s.ring t ++ [e])
      enqueued := Function.update s.enqueued t (s.enqueued t ++ [e]) } := by
  have hok := h.threads t
  rw [ht] at hok
  obtain ⟨hmem, hret⟩ := hok
  have henq : ∀ u, s.enqueued u <+: Function.update s.enqueued t (s.enqueued t ++ [e]) u := by
    intro u
    by_cases hu : u = t
    · subst hu
      rw [Function.update_self]
      exact List.prefix_append _ _
    · rw [Function.update_of_ne hu]
  refine ⟨fun u => ?_, fun u hu => ?_, fun u => ?_, fun u => (h.before u).trans (henq u), h.written⟩
  · change s.drained u ++ Function.update s.ring t (s.ring t ++ [e]) u
      = Function.update s.enqueued t (s.enqueued t ++ [e]) u
    by_cases hu : u = t
    · subst hu
      rw [Function.update_self, Function.update_self, ← List.append_assoc, h.conserved u]
    · rw [Function.update_of_ne hu, Function.update_of_ne hu]
      exact h.conserved u
  · have hne : u ≠ t := fun hut => hu (hut ▸ hmem)
    simp only [Function.update_of_ne hne]
    exact h.registered u hu
  · by_cases hu : u = t
    · subst hu
      simp only [setThread, Function.update_self, hret]
      rfl
    · simp only [setThread, Function.update_of_ne hu]
      exact h.threads u

lemma threadStep_inv (hd : Data d₀ s) (hc : Control s) {a : ThreadAct τ}
    (hs : s.threadStep t a = some s') : Data d₀ s' ∧ Control s' := by
  have hok := hd.threads t
  cases a with
  | append e =>
    simp only [threadStep] at hs
    split at hs
    · next ht =>
      rw [← Option.some_inj.mp hs]
      rw [ht] at hok
      refine ⟨hd.withThread (List.prefix_refl _) (fun _ _ => rfl) ?_,
        hc.withRings (List.prefix_refl _)⟩
      by_cases hmem : t ∈ s.logRings
      · rw [if_pos hmem]
        exact ⟨hmem, hok⟩
      · rw [if_neg hmem]
        exact hok
    · cases hs
  | register =>
    simp only [threadStep] at hs
    split at hs
    · next e ht =>
      rw [← Option.some_inj.mp hs]
      rw [ht] at hok
      have hrings : s.logRings <+: s.logRings ++ [t] := List.prefix_append _ _
      exact ⟨hd.withThread hrings (fun _ _ => rfl)
        ⟨List.mem_append_right _ (List.mem_singleton_self t), hok⟩, hc.withRings hrings⟩
    · cases hs
  | signal =>
    simp only [threadStep] at hs
    split at hs
    · next e ht =>
      rw [← Option.some_inj.mp hs]
      rw [ht] at hok
      exact ⟨hd.withThread (List.prefix_refl _) (fun _ _ => rfl) hok,
        hc.withRings (List.prefix_refl _)⟩
    · cases hs
  | emplaceBack =>
    simp only [threadStep] at hs
    split at hs
    · next e ht =>
      split at hs
      · rw [← Option.some_inj.mp hs]
        exact ⟨hd.emplaceBack ht, hc.withRings (List.prefix_refl _)⟩
      · cases hs
    · cases hs
  | notifyOne =>
    simp only [threadStep] at hs
    split at hs
    · next e ht =>
      rw [← Option.some_inj.mp hs]
      rw [ht] at hok
      refine ⟨hd.withThread (List.prefix_refl _) (fun u hu => Function.update_of_ne hu ..) ?_,
        hc.withRings (List.prefix_refl _)⟩
      rw [Function.update_self]
      exact hok
    · cases hs

/-! ## Steps of `stop` -/

lemma Data.returned_prefix (h : Data d₀ s) (t : ℕ) : s.returned t <+: s.enqueued t := by
  have hok := h.threads t
  cases hpc : s.threads t with
  | idle => rw [hpc] at hok; rw [show s.enqueued t = s.returned t from hok]
  | register e => rw [hpc] at hok; rw [show s.enqueued t = s.returned t from hok]
  | signal e => rw [hpc] at hok; rw [hok.2]
  | emplaceBack e => rw [hpc] at hok; rw [hok.2]
  | notifyOne e =>
    rw [hpc] at hok
    rw [show s.enqueued t = s.returned t ++ [e] from hok]
    exact List.prefix_append _ _

/-- `stop` is called while the loop goes on. -/
lemma callStop_inv (hd : Data d₀ s) (hc : Control s) (hstop : s.stop = .notCalled) :
    Data d₀ { s with stop := .called, before := s.returned } ∧
      Control { s with stop := .called, before := s.returned } := by
  have hlast : s.logger.isLast = false := by
    rw [← Bool.not_eq_true]
    intro hlast
    have hreq := hc.requested hlast
    rw [hstop] at hreq
    cases hreq
  exact ⟨⟨hd.conserved, hd.registered, hd.threads, hd.returned_prefix, hd.written⟩,
    Control.of_not_last hc.inRange hc.backlogs hlast⟩

/-- The other steps of `stop` raise flags. -/
lemma raise_inv (hd : Data d₀ s) (hc : Control s) (stop : StopPc) (f : Bool)
    (hstop : s.stop.stopRequested = true → stop.stopRequested = true)
    (hf : s.forceFlush = true → f = true) :
    Data d₀ { s with stop := stop, forceFlush := f } ∧
      Control { s with stop := stop, forceFlush := f } :=
  ⟨⟨hd.conserved, hd.registered, hd.threads, hd.before, hd.written⟩,
    ⟨hc.inRange, hc.backlogs, fun h => hstop (hc.requested h), fun h => hf (hc.force h), hc.once,
      hc.covered, hc.swept, hc.done⟩⟩

/-! ## Steps of the logging thread -/

/-- The entries stay where they are. -/
lemma drained_move {pc : LoggerPc} (h : pc.handed = s.logger.handed) {b f : Bool} :
    ({ s with logger := pc, signal := b, forceFlush := f } : LoggerState D).drained
      = s.drained := by
  funext t
  simp only [drained, pending, h]

lemma Data.move (hd : Data d₀ s) {pc : LoggerPc} (h : pc.handed = s.logger.handed) {b f : Bool} :
    Data d₀ { s with logger := pc, signal := b, forceFlush := f } where
  conserved := by
    rw [drained_move h]
    exact hd.conserved
  registered := hd.registered
  threads := hd.threads
  before := hd.before
  written := by
    simp only [pending, h]
    exact hd.written

/-- A move that stays in the loop or in the last `poll`, and is not the begin of a pass. -/
lemma Control.move (hc : Control s) {pc : LoggerPc} {b : Bool}
    (hhanded : pc.handed = s.logger.handed) (hrange : pc.InRange s.logRings.length)
    (hback : pc.hasBacklogs = false → s.backlogs = [])
    (hlast : pc.isLast = true → s.stop.stopRequested = true)
    (hforced : pc.forced = true → s.logger.forced = true)
    (honce : ∀ n, pc ≠ .testStop true n) (hpass : ∀ n i e, pc ≠ .pass true n i e)
    (hswept : ∀ t, pc.Swept s.logRings t → s.before t <+: s.drained t)
    (hdone : pc = .done → s.buffered = []) :
    Control { s with logger := pc, signal := b } where
  inRange := hrange
  backlogs := hback
  requested := hlast
  force := fun h => hc.force (hforced h)
  once := honce
  covered := fun n i e hpc => absurd hpc (hpass n i e)
  swept := by
    rw [drained_move hhanded (f := s.forceFlush)]
    exact hswept
  done := hdone

/-- `poll` begins: all rings with an entry to account for are registered. -/
lemma poll_inv (hd : Data d₀ s) (hc : Control s) {last : Bool} (hpc : s.logger = .poll last) :
    Data d₀ { s with logger := .pass last s.logRings.length 0 true } ∧
      Control { s with logger := .pass last s.logRings.length 0 true } := by
  have hreq := hc.requested
  have hforce := hc.force
  rw [hpc] at hreq hforce
  refine ⟨hd.move (by rw [hpc]; rfl), ⟨⟨Nat.zero_le _, Nat.le_refl _⟩,
    by simp [LoggerPc.hasBacklogs], hreq, hforce, by simp, fun n i e hpass t ht => ?_,
    fun t hswept => ?_, by simp⟩⟩
  · simp only [LoggerPc.pass.injEq] at hpass
    change t ∈ s.logRings.take n
    rw [← hpass.2.1, List.take_length]
    by_contra hmem
    refine ht (List.prefix_nil.mp ?_)
    rw [← hd.registered t hmem]
    exact hd.before t
  · cases hswept.2

/-- What one access to a ring takes out. -/
lemma drained_pass (hpc : s.logger.handed = false) {last empty : Bool} {n i : ℕ} (u : ℕ) :
    ({ s with
      ring := Function.update s.ring t []
      backlogs := s.backlogs ++ (s.ring t).map fun h => (t, h)
      logger := .pass last n i empty } : LoggerState D).drained u
      = s.drained u ++ if u = t then s.ring t else [] := by
  have hpass : (LoggerPc.pass last n i empty).handed = false := rfl
  simp only [drained, pending, hpc, hpass, ofThread_append, List.append_assoc]
  by_cases hu : u = t
  · subst hu
    rw [if_pos rfl, ofThread_map_self]
  · rw [if_neg hu, ofThread_map_of_ne (Ne.symm hu)]

lemma pass_inv (hd : Data d₀ s) (hc : Control s) {last empty empty' : Bool} {n i : ℕ}
    (hpc : s.logger = .pass last n i empty) (hi : i < n) (ht : s.logRings[i]? = some t) :
    Data d₀ { s with
      ring := Function.update s.ring t []
      backlogs := s.backlogs ++ (s.ring t).map fun h => (t, h)
      logger := .pass last n (i + 1) empty' } ∧
    Control { s with
      ring := Function.update s.ring t []
      backlogs := s.backlogs ++ (s.ring t).map fun h => (t, h)
      logger := .pass last n (i + 1) empty' } := by
  have hhanded : s.logger.handed = false := by rw [hpc]; rfl
  have hreq := hc.requested
  have hforce := hc.force
  have hrange := hc.inRange
  rw [hpc] at hreq hforce hrange
  refine ⟨⟨fun u => ?_, hd.registered, hd.threads, hd.before, ?_⟩, ⟨⟨hi, hrange.2⟩,
    by simp [LoggerPc.hasBacklogs], hreq, hforce, by simp, fun n' i' e' hpass => ?_,
    fun u hswept => ?_, by simp⟩⟩
  · rw [drained_pass hhanded]
    change s.drained u ++ _ ++ Function.update s.ring t [] u = s.enqueued u
    have hcons := hd.conserved u
    by_cases hu : u = t
    · subst hu
      rw [if_pos rfl, Function.update_self, List.append_nil]
      exact hcons
    · rw [if_neg hu, Function.update_of_ne hu, List.append_nil]
      exact hcons
  · have hw := hd.written
    simp only [pending, hhanded] at hw
    exact hw
  · simp only [LoggerPc.pass.injEq] at hpass
    obtain ⟨rfl, rfl, -, -⟩ := hpass
    exact hc.covered _ _ _ hpc
  · rw [drained_pass hhanded]
    obtain ⟨hl, hmem⟩ := hswept
    obtain ⟨hlt, hget⟩ := List.getElem?_eq_some_iff.mp ht
    change u ∈ s.logRings.take (i + 1) at hmem
    rw [List.take_succ_eq_append_getElem hlt, hget] at hmem
    by_cases hu : u = t
    · subst hu
      rw [if_pos rfl, hd.conserved u]
      exact hd.before u
    · have hmem' : u ∈ s.logRings.take i := by simpa [hu] using hmem
      rw [if_neg hu, List.append_nil]
      exact hc.swept u (by rw [hpc]; exact ⟨hl, hmem'⟩)

/-- A pass ends: the last one has emptied all rings with an entry to account for. -/
lemma passEnd_inv (hd : Data d₀ s) (hc : Control s) {last empty : Bool} {n i : ℕ}
    (hpc : s.logger = .pass last n i empty) (hi : ¬ i < n) :
    Data d₀ { s with logger := .testSignal last n empty } ∧
      Control { s with logger := .testSignal last n empty } := by
  have hhanded : (LoggerPc.testSignal last n empty).handed = s.logger.handed := by rw [hpc]; rfl
  have hrange := hc.inRange
  have hreq := hc.requested
  rw [hpc] at hrange hreq
  refine ⟨hd.move hhanded, hc.move hhanded hrange.2 (by simp [LoggerPc.hasBacklogs]) hreq
    (by rw [hpc]; exact id) (by simp) (by simp) (fun t hl => ?_) (by simp)⟩
  subst hl
  by_cases hbefore : s.before t = []
  · rw [hbefore]
    exact List.nil_prefix
  · have hmem := hc.covered _ _ _ hpc t hbefore
    refine hc.swept t ?_
    rw [hpc]
    exact ⟨rfl, by rwa [show i = n by have := hrange.1; omega]⟩

/-- From one place between a pass and the formatting to another. -/
structure Follows (pc pc' : LoggerPc) : Prop where
  handed : pc'.handed = pc.handed
  backlogs : pc'.hasBacklogs = true
  last : pc'.isLast = pc.isLast
  forced : pc'.forced = pc.forced
  pass : ∀ n i e, pc' ≠ .pass true n i e
  swept : ∀ rings t, pc'.Swept rings t → pc.Swept rings t

/-- The moves between a pass and the formatting. -/
lemma after_inv (hd : Data d₀ s) (hc : Control s) {pc pc' : LoggerPc} {b : Bool}
    (hpc : s.logger = pc) (h : Follows pc pc') (hrange : pc'.InRange s.logRings.length)
    (honce : ∀ n, pc' ≠ .testStop true n) :
    Data d₀ { s with logger := pc', signal := b } ∧
      Control { s with logger := pc', signal := b } := by
  subst hpc
  refine ⟨hd.move h.handed, hc.move h.handed hrange (fun hb => ?_) (fun hl => ?_) (fun hf => ?_)
    honce h.pass (fun t ht => hc.swept t (h.swept _ t ht)) (fun hdone => ?_)⟩
  · rw [h.backlogs] at hb
    cases hb
  · exact hc.requested (h.last ▸ hl)
  · exact h.forced ▸ hf
  · have hback := h.backlogs
    rw [hdone] at hback
    cases hback

/-- The backlogs are written to the buffer. -/
lemma format_inv (hd : Data d₀ s) (hc : Control s) {last : Bool} (hpc : s.logger = .format last) :
    Data d₀ { s with
      datetime := (D.writeAll s.datetime (s.backlogs.map Prod.snd)).1
      writingBuffer := s.writingBuffer ++ (D.writeAll s.datetime (s.backlogs.map Prod.snd)).2
      buffered := s.buffered ++ s.backlogs
      backlogs := []
      logger := .flush last } ∧
    Control { s with
      datetime := (D.writeAll s.datetime (s.backlogs.map Prod.snd)).1
      writingBuffer := s.writingBuffer ++ (D.writeAll s.datetime (s.backlogs.map Prod.snd)).2
      buffered := s.buffered ++ s.backlogs
      backlogs := []
      logger := .flush last } := by
  have hhanded : s.logger.handed = false := by rw [hpc]; rfl
  have hflush : (LoggerPc.flush last).handed = false := rfl
  have hdrained : ∀ u, s.drained u
      = ofThread u (s.flushed ++ (s.buffered ++ s.backlogs) ++ []) := fun u => by
    simp only [drained, pending, hhanded, Bool.false_eq_true, if_false, List.append_assoc,
      List.append_nil]
  have hreq := hc.requested
  have hforce := hc.force
  have hswept := hc.swept
  rw [hpc] at hreq hforce hswept
  refine ⟨⟨fun u => ?_, hd.registered, hd.threads, hd.before, ?_⟩, ⟨trivial, fun _ => rfl, hreq,
    hforce, by simp, by simp, fun u h => ?_, by simp⟩⟩
  · rw [← hd.conserved u, hdrained u]
    rfl
  · obtain ⟨d, hflushed, hbuffered⟩ := hd.written
    simp only [pending, hhanded, Bool.false_eq_true, if_false] at hbuffered
    refine ⟨d, hflushed, ?_⟩
    simp only [pending, hflush, Bool.false_eq_true, if_false, List.map_append,
      Datetime.writeAll_append, hbuffered]
  · have hprefix := hswept u h
    rw [hdrained u] at hprefix
    exact hprefix

/-- Nothing is to be written. -/
lemma formatNone_inv (hd : Data d₀ s) (hc : Control s) {last : Bool}
    (hpc : s.logger = .format last) (hempty : s.backlogs = [] ∧ s.writingBuffer = []) :
    Data d₀ (s.pollReturn last) ∧ Control (s.pollReturn last) := by
  have hhanded : s.logger.handed = false := by rw [hpc]; rfl
  have hbuffered : s.buffered = [] := by
    obtain ⟨d, -, hw⟩ := hd.written
    simp only [pending, hhanded, Bool.false_eq_true, if_false, hempty.2] at hw
    exact List.map_eq_nil_iff.mp (Datetime.writeAll_eq_nil (congrArg Prod.snd hw))
  have hreq := hc.requested
  have hswept := hc.swept
  rw [hpc] at hreq hswept
  cases last with
  | false =>
    exact ⟨hd.move (by rw [hhanded]; rfl), Control.of_not_last trivial (fun _ => hempty.1) rfl⟩
  | true =>
    exact ⟨hd.move (by rw [hhanded]; rfl), hc.move (by rw [hhanded]; rfl) trivial
      (fun _ => hempty.1) hreq (by simp [LoggerPc.forced]) (by simp) (by simp)
      (fun t _ => hswept t rfl) (fun _ => hbuffered)⟩

/-- The buffer is handed to the file. -/
lemma flush_inv (hd : Data d₀ s) (hc : Control s) {last : Bool} (hpc : s.logger = .flush last) :
    Data d₀ { s with
      output := s.output ++ s.writingBuffer
      flushed := s.flushed ++ s.buffered
      logger := .testFlushed last } ∧
    Control { s with
      output := s.output ++ s.writingBuffer
      flushed := s.flushed ++ s.buffered
      logger := .testFlushed last } := by
  have hhanded : s.logger.handed = false := by rw [hpc]; rfl
  have htest : (LoggerPc.testFlushed last).handed = true := rfl
  have hdrained : ∀ u, s.drained u
      = ofThread u (s.flushed ++ s.buffered ++ [] ++ s.backlogs) := fun u => by
    simp only [drained, pending, hhanded, Bool.false_eq_true, if_false, List.append_nil]
  have hback := hc.backlogs
  have hreq := hc.requested
  have hswept := hc.swept
  rw [hpc] at hback hreq hswept
  refine ⟨⟨fun u => ?_, hd.registered, hd.threads, hd.before, ?_⟩, ⟨trivial, hback, hreq,
    by simp [LoggerPc.forced], by simp, by simp, fun u h => ?_, by simp⟩⟩
  · rw [← hd.conserved u, hdrained u]
    rfl
  · obtain ⟨d, hflushed, hbuffered⟩ := hd.written
    simp only [pending, hhanded, Bool.false_eq_true, if_false] at hbuffered
    refine ⟨s.datetime, ?_, ?_⟩
    · simp only [List.map_append, Datetime.writeAll_append, hflushed, hbuffered]
    · simp only [pending, htest, if_true]
      rfl
  · have hprefix := hswept u h
    rw [hdrained u] at hprefix
    exact hprefix

/-- The buffer is cleared, and `poll` returns. -/
lemma clear_inv (hd : Data d₀ s) {last f : Bool} (hhanded : s.logger.handed = true)
    (hreq : last = true → s.stop.stopRequested = true)
    (hswept : last = true → ∀ t, s.before t <+: s.drained t) (hback : s.backlogs = []) :
    Data d₀ ({ s with forceFlush := f, writingBuffer := [], buffered := [] }.pollReturn last) ∧
    Control ({ s with forceFlush := f, writingBuffer := [], buffered := [] }.pollReturn last) := by
  have hpc : (if last then LoggerPc.done else LoggerPc.wait).handed = false := by
    cases last <;> rfl
  have hdrained : ∀ u, s.drained u = ofThread u (s.flushed ++ [] ++ s.backlogs) := fun u => by
    simp only [drained, pending, hhanded, if_true]
  have hdata : Data d₀
      ({ s with forceFlush := f, writingBuffer := [], buffered := [] }.pollReturn last) := by
    refine ⟨fun u => ?_, hd.registered, hd.threads, hd.before, ?_⟩
    · have hcons := hd.conserved u
      rw [hdrained u] at hcons
      simp only [drained, pollReturn, pending, hpc, Bool.false_eq_true, if_false]
      exact hcons
    · obtain ⟨d, hflushed, hbuffered⟩ := hd.written
      simp only [pending, hhanded, if_true] at hbuffered
      refine ⟨d, hflushed, ?_⟩
      simp only [pollReturn, pending, hpc, Bool.false_eq_true, if_false]
      exact hbuffered
  refine ⟨hdata, ?_⟩
  cases last with
  | false => exact Control.of_not_last trivial (fun _ => hback) rfl
  | true =>
    refine ⟨trivial, fun _ => hback, fun _ => hreq rfl, by simp [pollReturn, LoggerPc.forced],
      by simp [pollReturn], by simp [pollReturn], fun t _ => ?_, fun _ => rfl⟩
    have hprefix := hswept rfl t
    rw [hdrained t] at hprefix
    exact hprefix

/-- A move in the loop, before the last `poll`. -/
lemma loop_inv (hd : Data d₀ s) {pc : LoggerPc} {f : Bool} (hhanded : pc.handed = s.logger.handed)
    (hrange : pc.InRange s.logRings.length) (hback : pc.hasBacklogs = false → s.backlogs = [])
    (hlast : pc.isLast = false) :
    Data d₀ { s with logger := pc, forceFlush := f } ∧
      Control { s with logger := pc, forceFlush := f } :=
  ⟨hd.move hhanded, Control.of_not_last hrange hback hlast⟩

/-- The loop is left. -/
lemma leave_inv (hd : Data d₀ s) (hc : Control s) (hpc : s.logger = .test)
    (hstop : s.stop.stopRequested = true) :
    Data d₀ { s with logger := .setForce } ∧ Control { s with logger := .setForce } := by
  have hhanded : LoggerPc.setForce.handed = s.logger.handed := by rw [hpc]; rfl
  have hback := hc.backlogs
  rw [hpc] at hback
  exact ⟨hd.move hhanded, hc.move hhanded trivial hback (fun _ => hstop)
    (by simp [LoggerPc.forced]) (by simp) (by simp) (by simp [LoggerPc.Swept]) (by simp)⟩

/-- The last `poll` is to flush. -/
lemma lastPoll_inv (hd : Data d₀ s) (hc : Control s) (hpc : s.logger = .setForce) :
    Data d₀ { s with forceFlush := true, logger := .poll true } ∧
      Control { s with forceFlush := true, logger := .poll true } := by
  have hhanded : (LoggerPc.poll true).handed = s.logger.handed := by rw [hpc]; rfl
  have hback := hc.backlogs
  have hreq := hc.requested
  rw [hpc] at hback hreq
  exact ⟨hd.move hhanded, ⟨trivial, hback, hreq, fun _ => rfl, by simp, by simp,
    by simp [LoggerPc.Swept], by simp⟩⟩

/-- The flag is to be cleared with the buffer. -/
lemma toClear_inv (hd : Data d₀ s) (hc : Control s) {last : Bool}
    (hpc : s.logger = .testFlushed last) :
    Data d₀ { s with logger := .clearForce last } ∧
      Control { s with logger := .clearForce last } := by
  have hhanded : (LoggerPc.clearForce last).handed = s.logger.handed := by rw [hpc]; rfl
  have hback := hc.backlogs
  have hreq := hc.requested
  have hswept := hc.swept
  rw [hpc] at hback hreq hswept
  exact ⟨hd.move hhanded, hc.move hhanded trivial hback hreq (by simp [LoggerPc.forced]) (by simp)
    (by simp) hswept (by simp)⟩

/-- The last `poll` sees the flag, so it neither looks for a stop request -/
lemma Control.testStop_not_last (hc : Control s) {last : Bool} {n : ℕ}
    (hpc : s.logger = .testStop last n) : last = false := by
  cases last with
  | false => rfl
  | true => exact absurd hpc (hc.once n)

/-- nor keeps what is in the buffer. -/
lemma Control.flush_not_last (hc : Control s) {last : Bool} (hpc : s.logger = .flush last)
    (hforce : s.forceFlush = false) : last = false := by
  cases last with
  | false => rfl
  | true =>
    have hset := hc.force
    rw [hpc, hforce] at hset
    cases hset rfl

lemma loggerStep_inv (hd : Data d₀ s) (hc : Control s) (hs : s.loggerStep = some s') :
    Data d₀ s' ∧ Control s' := by
  have hreq := hc.requested
  have hforce := hc.force
  have hback := hc.backlogs
  have hrange := hc.inRange
  cases hpc : s.logger with
  | notStarted => simp only [loggerStep, hpc] at hs; cases hs
  | test =>
    simp only [loggerStep, hpc] at hs
    rw [hpc] at hback
    split at hs
    · next hstop =>
      rw [← Option.some_inj.mp hs]
      exact leave_inv hd hc hpc hstop
    · rw [← Option.some_inj.mp hs]
      exact loop_inv hd (by rw [hpc]; rfl) trivial hback rfl
  | poll last =>
    simp only [loggerStep, hpc] at hs
    rw [← Option.some_inj.mp hs]
    exact poll_inv hd hc hpc
  | pass last n i e =>
    simp only [loggerStep, hpc] at hs
    split at hs
    · next hi =>
      split at hs
      · next t ht =>
        rw [← Option.some_inj.mp hs]
        exact pass_inv hd hc hpc hi ht
      · cases hs
    · next hi =>
      rw [← Option.some_inj.mp hs]
      exact passEnd_inv hd hc hpc hi
  | testSignal last n e =>
    simp only [loggerStep, hpc] at hs
    rw [hpc] at hrange
    split at hs
    · rw [← Option.some_inj.mp hs]
      exact after_inv hd hc hpc ⟨rfl, rfl, rfl, rfl, by simp, fun _ _ => id⟩ trivial (by simp)
    · rw [← Option.some_inj.mp hs]
      exact after_inv hd hc hpc ⟨rfl, rfl, rfl, rfl, by simp, fun _ _ => id⟩ hrange (by simp)
  | testForce last n =>
    simp only [loggerStep, hpc] at hs
    rw [hpc] at hrange hforce
    split at hs
    · rw [← Option.some_inj.mp hs]
      exact after_inv hd hc hpc ⟨rfl, rfl, rfl, rfl, by simp, fun _ _ => id⟩ trivial (by simp)
    · next hnot =>
      rw [← Option.some_inj.mp hs]
      refine after_inv hd hc hpc ⟨rfl, rfl, rfl, rfl, by simp, fun _ _ => id⟩ hrange fun m hm => ?_
      simp only [LoggerPc.testStop.injEq] at hm
      exact hnot (hforce hm.1)
  | clearSignal last =>
    simp only [loggerStep, hpc] at hs
    rw [← Option.some_inj.mp hs]
    exact after_inv hd hc hpc ⟨rfl, rfl, rfl, rfl, by simp, fun _ _ => id⟩ trivial (by simp)
  | testStop last n =>
    simp only [loggerStep, hpc] at hs
    rw [hpc] at hrange
    obtain rfl := hc.testStop_not_last hpc
    split at hs
    · rw [← Option.some_inj.mp hs]
      exact after_inv hd hc hpc ⟨rfl, rfl, rfl, rfl, by simp, fun _ _ => id⟩ trivial (by simp)
    · rw [← Option.some_inj.mp hs]
      exact loop_inv hd (by rw [hpc]; rfl) ⟨Nat.zero_le _, hrange⟩
        (by simp [LoggerPc.hasBacklogs]) rfl
  | format last =>
    simp only [loggerStep, hpc] at hs
    split at hs
    · next hempty =>
      rw [← Option.some_inj.mp hs]
      exact formatNone_inv hd hc hpc (by simpa using hempty)
    · rw [← Option.some_inj.mp hs]
      exact format_inv hd hc hpc
  | flush last =>
    simp only [loggerStep, hpc] at hs
    split at hs
    · rw [← Option.some_inj.mp hs]
      exact flush_inv hd hc hpc
    · next hnot =>
      rw [← Option.some_inj.mp hs]
      rw [Bool.or_eq_true, not_or] at hnot
      obtain rfl := hc.flush_not_last hpc (Bool.eq_false_iff.mpr hnot.1)
      rw [hpc] at hback
      exact loop_inv hd (by rw [hpc]; rfl) trivial hback rfl
  | testFlushed last =>
    simp only [loggerStep, hpc] at hs
    split at hs
    · rw [← Option.some_inj.mp hs]
      exact toClear_inv hd hc hpc
    · rw [← Option.some_inj.mp hs]
      have hswept := hc.swept
      rw [hpc] at hback hreq hswept
      exact clear_inv hd (by rw [hpc]; rfl) hreq (fun hl t => hswept t hl) (hback rfl)
  | clearForce last =>
    simp only [loggerStep, hpc] at hs
    rw [← Option.some_inj.mp hs]
    have hswept := hc.swept
    rw [hpc] at hback hreq hswept
    exact clear_inv hd (by rw [hpc]; rfl) hreq (fun hl t => hswept t hl) (hback rfl)
  | wait =>
    simp only [loggerStep, hpc] at hs
    rw [← Option.some_inj.mp hs]
    rw [hpc] at hback
    exact loop_inv hd (by rw [hpc]; rfl) trivial hback rfl
  | setForce =>
    simp only [loggerStep, hpc] at hs
    rw [← Option.some_inj.mp hs]
    exact lastPoll_inv hd hc hpc
  | done => simp only [loggerStep, hpc] at hs; cases hs

end LoggerState

end Coring.Logging
