import Coring.Logging.Delivery
import Coring.Logging.SpscQueue

/-!
# The logger over its rings

`Coring.Logging.AsyncLogger` takes the rings to be queues: `emplace_back` puts an entry into the
ring of its thread in one step, and `batch_out` takes all entries out in one.  Here every access
of the two to a ring is a step, as in `Coring.Logging.SpscParties`, and the steps of all threads
and of the logging thread are interleaved; what accesses no ring is as it was, with the list of the
rings still a list (`Coring.Logging.LogRings` has the vector).

An entry is in the queue from the store of the write index on, and `batch_out` has taken out what
it finds when it loads the write index, although it copies these entries and gives back their
slots only later.  Seen in this way (`view`) every run of the logger over the rings is a run of the
logger over queues (`run_simulates`).
-/

namespace Coring.Logging.RingLogger

variable {τ : Type} {D : Datetime τ}

/-! ## The machine -/

structure State (D : Datetime τ) where
  /-- Everything but the rings; of its fields `ring` and `enqueued` nothing is read. -/
  base : LoggerState D
  rings : ℕ → Spsc.State (LogRingEntry τ)

/-- The loop over the rings in `poll` is at ring `i`, that of `thread`. -/
structure Turn where
  last : Bool
  ringsSize : ℕ
  i : ℕ
  empty : Bool
  thread : ℕ

def Turn.next (w : Turn) (empty : Bool) : LoggerPc := .pass w.last w.ringsSize (w.i + 1) empty

def turn (b : LoggerState D) : Option Turn :=
  match b.logger with
  | .pass last n i empty =>
      if i < n then b.logRings[i]?.map fun t => ⟨last, n, i, empty, t⟩ else none
  | _ => none

inductive Act (τ : Type)
  /-- A step that accesses no ring. -/
  | shared (a : LoggerState.Act τ)
  /-- `emplace_back` on the ring of thread `t`: its call with the load of the write index, -/
  | emplace (t : ℕ)
  /-- and its other accesses. -/
  | loadRead (t : ℕ)
  | construct (t : ℕ)
  | publish (t : ℕ)
  /-- `batch_out(backlogs)` on the ring whose turn it is: its call with the load of the read
  index, -/
  | batchOut
  /-- and its other accesses. -/
  | loadWrite
  | copy
  | release

/-- The thread whose step it is, if it is one of `append`. -/
def Act.thread : Act τ → Option ℕ
  | .shared (.thread t _) | .emplace t | .loadRead t | .construct t | .publish t => some t
  | _ => none

def accessesRing (b : LoggerState D) : LoggerState.Act τ → Bool
  | .thread _ .emplaceBack => true
  | .logger => (turn b).isSome
  | _ => false

namespace State

variable (s : State D)

def setRing (t : ℕ) (r : Spsc.State (LogRingEntry τ)) : State D :=
  { s with rings := Function.update s.rings t r }

@[simp] lemma setRing_self (t : ℕ) (r : Spsc.State (LogRingEntry τ)) :
    (s.setRing t r).rings t = r := Function.update_self ..

def produce (t : ℕ) (a : Spsc.ProducerAct (LogRingEntry τ)) : Option (State D) :=
  (Spsc.produce (s.rings t) a).map (s.setRing t)

def consume (t : ℕ) (a : Spsc.ConsumerAct (LogRingEntry τ)) : Option (State D) :=
  (Spsc.consume (s.rings t) a).map (s.setRing t)

end State

def step (s : State D) : Act τ → Option (State D)
  | .shared a =>
      if accessesRing s.base a then none
      else (LoggerState.step s.base a).map fun b => { s with base := b }
  | .emplace t => match s.base.threads t with
      | .emplaceBack h => s.produce t (.emplace h)
      | _ => none
  | .loadRead t => s.produce t .loadRead
  | .construct t => s.produce t .construct
  | .publish t => match s.base.threads t with
      | .emplaceBack h => do
          let s ← s.produce t .publish
          some { s with base := s.base.setThread t (.notifyOne h) }
      | _ => none
  | .batchOut => do
      let w ← turn s.base
      s.consume w.thread (.batchOut (s.base.backlogs.map fun b => some b.2))
  | .loadWrite => do
      let w ← turn s.base
      let s ← s.consume w.thread .loadWrite
      match (s.rings w.thread).consumer with
      | .idle => some { s with base := { s.base with logger := w.next w.empty } }
      | _ => some s
  | .copy => do
      let w ← turn s.base
      s.consume w.thread .copy
  | .release => do
      let w ← turn s.base
      match (s.rings w.thread).consumer with
      | .copying v base _ _ _ => do
          -- `backlogs` is `v` now; what a raw slot would give is no entry
          let hs ← (v.drop base).mapM id
          let s ← s.consume w.thread .release
          some { s with base := { s.base with
            backlogs := s.base.backlogs ++ hs.map fun h => (w.thread, h)
            logger := w.next false } }
      | _ => none

def machine : Machine (State D) (Act τ) := ⟨step⟩

/-- A new logger; an entry has the size `size`, and a ring `2 ^ 13` slots. -/
def start (size : ℕ) (D : Datetime τ) (d : D.State) : State D where
  base := LoggerState.start D d
  rings := fun _ => Spsc.start size 13

/-! ## The queues that the rings are -/

section View

variable {α : Type}

/-- How many entries `batch_out` has found and not released. -/
def claims : Spsc.Consumer α → ℕ
  | .copying _ _ _ entries _ => entries.toNat
  | _ => 0

/-- These entries, -/
def claimed (r : Spsc.State α) : List α :=
  (r.enqueued.drop r.received.length).take (claims r.consumer)

/-- and those behind them. -/
def unread (r : Spsc.State α) : List α :=
  r.enqueued.drop (r.received.length + claims r.consumer)

variable (s : State D)

/-- The logger with queues. -/
def queues : LoggerState D :=
  { s.base with ring := fun t => unread (s.rings t), enqueued := fun t => (s.rings t).enqueued }

/-- The turn whose entries `batch_out` has found. -/
def carrying : Option Turn :=
  (turn s.base).filter fun w => claims (s.rings w.thread).consumer ≠ 0

/-- It has taken them out, and the turn is over. -/
def view : LoggerState D :=
  match carrying s with
  | none => queues s
  | some w =>
      { queues s with
        backlogs := s.base.backlogs ++ (claimed (s.rings w.thread)).map fun h => (w.thread, h)
        logger := w.next false }

end View

section Turn

variable {b b' : LoggerState D} {w : Turn}

lemma turn_eq_some_iff : turn b = some w ↔
    b.logger = .pass w.last w.ringsSize w.i w.empty ∧ w.i < w.ringsSize ∧
      b.logRings[w.i]? = some w.thread := by
  obtain ⟨last, n, i, empty, t⟩ := w
  unfold turn
  split
  · next last' n' i' empty' hpc =>
    rw [Option.ite_none_right_eq_some, Option.map_eq_some_iff, hpc]
    constructor
    · rintro ⟨hlt, u, hu, heq⟩
      cases heq
      exact ⟨rfl, hlt, hu⟩
    · rintro ⟨heq, hlt, hu⟩
      cases heq
      exact ⟨hlt, t, hu, rfl⟩
  · next hpc => exact iff_of_false nofun fun h => hpc _ _ _ _ h.1

/-- The turn stays what it is when rings are added. -/
lemma turn_of_registered (h : turn b = some w) (hlogger : b'.logger = b.logger)
    (hrings : b.logRings <+: b'.logRings) : turn b' = some w := by
  obtain ⟨hpc, hlt, hring⟩ := turn_eq_some_iff.mp h
  obtain ⟨more, hmore⟩ := hrings
  refine turn_eq_some_iff.mpr ⟨hlogger.trans hpc, hlt, ?_⟩
  rw [← hmore, List.getElem?_append_left (List.getElem?_eq_some_iff.mp hring).1, hring]

end Turn

/-! ## What accesses no ring -/

section Frame

variable {b b' : LoggerState D} {a : LoggerState.Act τ}

def withQueues (ring enqueued : ℕ → List (LogRingEntry τ)) (b : LoggerState D) : LoggerState D :=
  { b with ring := ring, enqueued := enqueued }

/-- It is the same whatever is in the rings. -/
lemma step_withQueues (h : accessesRing b a = false) (ring enqueued : ℕ → List (LogRingEntry τ)) :
    LoggerState.step (withQueues ring enqueued b) a
      = (LoggerState.step b a).map (withQueues ring enqueued) := by
  cases a with
  | thread t a =>
    cases a with
    | emplaceBack => cases h
    | _ =>
      simp only [LoggerState.step, LoggerState.threadStep, withQueues]
      cases hpc : b.threads t with
      | _ => rfl
  | logger =>
    simp only [LoggerState.step, LoggerState.loggerStep, withQueues]
    cases hpc : b.logger with
    | pass last n i empty =>
      by_cases hlt : i < n
      · cases hring : b.logRings[i]? with
        | none =>
          simp only [if_pos hlt, hring]
          rfl
        | some t =>
          have hturn : turn b = some ⟨last, n, i, empty, t⟩ :=
            turn_eq_some_iff.mpr ⟨hpc, hlt, hring⟩
          rw [accessesRing, hturn] at h
          cases h
      · simp only [if_neg hlt]
        rfl
    | notStarted => rfl
    | poll last => rfl
    | clearSignal last => rfl
    | clearForce last => rfl
    | wait => rfl
    | setForce => rfl
    | done => rfl
    | _ =>
      rw [apply_ite (Option.map (withQueues ring enqueued))]
      rfl
  | _ =>
    simp only [LoggerState.step, withQueues]
    rw [apply_ite (Option.map (withQueues ring enqueued))]
    rfl

/-- A thread that is to put an entry into its ring stays there meanwhile. -/
lemma step_emplaceBack (hacc : accessesRing b a = false) (h : LoggerState.step b a = some b')
    {t : ℕ} {e : LogRingEntry τ} (ht : b.threads t = .emplaceBack e) :
    b'.threads t = .emplaceBack e := by
  cases a with
  | thread u a =>
    have hother : ∀ pc, u ≠ t → Function.update b.threads u pc t = .emplaceBack e := by
      intro pc hne
      rw [Function.update_of_ne (Ne.symm hne), ht]
    by_cases hu : u = t
    · subst hu
      cases a with
      | emplaceBack => cases hacc
      | _ =>
        simp only [LoggerState.step, LoggerState.threadStep, ht] at h
        cases h
    · cases a with
      | emplaceBack => cases hacc
      | _ =>
        simp only [LoggerState.step, LoggerState.threadStep] at h
        split at h
        · cases h
          exact hother _ hu
        · cases h
  | logger =>
    rw [(LoggerState.loggerStep_frame h).1]
    exact ht
  | _ =>
    obtain ⟨-, hb'⟩ := Option.ite_none_right_eq_some.mp h
    cases hb'
    exact ht

/-- While the logging thread is at a ring, what the others do is the same wherever it is. -/
lemma step_inTurn {w : Turn} (hturn : turn b = some w) (hacc : accessesRing b a = false)
    (h : LoggerState.step b a = some b') :
    b'.logger = b.logger ∧ b'.backlogs = b.backlogs ∧ b.logRings <+: b'.logRings ∧
      ∀ backlogs last n i empty,
        LoggerState.step { b with backlogs := backlogs, logger := .pass last n i empty } a
          = some { b' with backlogs := backlogs, logger := .pass last n i empty } := by
  obtain ⟨hpc, -, -⟩ := turn_eq_some_iff.mp hturn
  cases a with
  | thread t a =>
    cases a with
    | emplaceBack => cases hacc
    | _ =>
      simp only [LoggerState.step, LoggerState.threadStep] at h ⊢
      split at h
      · cases h
        refine ⟨rfl, rfl, ?_, fun _ _ _ _ _ => rfl⟩
        first
          | exact List.prefix_rfl
          | exact List.prefix_append _ _
      · cases h
  | logger =>
    rw [accessesRing, hturn] at hacc
    cases hacc
  | run =>
    obtain ⟨hnot, -⟩ := Option.ite_none_right_eq_some.mp h
    rw [hpc] at hnot
    cases hnot
  | callStop =>
    obtain ⟨hguard, hb'⟩ := Option.ite_none_right_eq_some.mp h
    cases hb'
    refine ⟨rfl, rfl, List.prefix_rfl, fun _ _ _ _ _ => ?_⟩
    simp only [LoggerState.step]
    rw [if_pos ⟨by simp, hguard.2⟩]
  | requestStop =>
    obtain ⟨hguard, hb'⟩ := Option.ite_none_right_eq_some.mp h
    cases hb'
    exact ⟨rfl, rfl, List.prefix_rfl, fun _ _ _ _ _ => if_pos hguard⟩
  | forceFlush =>
    obtain ⟨hguard, hb'⟩ := Option.ite_none_right_eq_some.mp h
    cases hb'
    exact ⟨rfl, rfl, List.prefix_rfl, fun _ _ _ _ _ => if_pos hguard⟩
  | join =>
    obtain ⟨⟨-, hdone⟩, -⟩ := Option.ite_none_right_eq_some.mp h
    rw [hpc] at hdone
    cases hdone

/-- Nor does it access a ring then. -/
lemma accessesRing_inTurn {w : Turn} (hturn : turn b = some w) (hacc : accessesRing b a = false)
    (b' : LoggerState D) : accessesRing b' a = false := by
  cases a with
  | thread t a =>
    cases a with
    | emplaceBack => cases hacc
    | _ => rfl
  | logger =>
    rw [accessesRing, hturn] at hacc
    cases hacc
  | _ => rfl

lemma step_room {t : ℕ} {e : LogRingEntry τ} (ht : b.threads t = .emplaceBack e)
    (hroom : (b.ring t).length < ringCapacity) :
    LoggerState.step b (.thread t .emplaceBack) = some { b.setThread t (.notifyOne e) with
      ring := Function.update b.ring t (b.ring t ++ [e])
      enqueued := Function.update b.enqueued t (b.enqueued t ++ [e]) } := by
  simp only [LoggerState.step, LoggerState.threadStep, ht]
  exact if_pos hroom

lemma step_turn {w : Turn} (hturn : turn b = some w) :
    LoggerState.step b .logger = some { b with
      ring := Function.update b.ring w.thread []
      backlogs := b.backlogs ++ (b.ring w.thread).map fun h => (w.thread, h)
      logger := w.next (w.empty && (b.ring w.thread).isEmpty) } := by
  obtain ⟨hpc, hlt, hring⟩ := turn_eq_some_iff.mp hturn
  simp only [LoggerState.step, LoggerState.loggerStep, hpc, if_pos hlt, hring]
  rfl

end Frame

/-! ## The rings -/

section Ring

variable {α : Type} {r r' : Spsc.State α} {k n : ℕ}

/-- What `emplace` is to put into the ring. -/
def value : Spsc.Producer α → Option α
  | .idle => none
  | .emplace v _ | .tryEmplace v _ | .construct v _ | .publish v _ => some v

/-- The consumer has called `batch_out` only. -/
def Batching : Spsc.Consumer α → Prop
  | .idle | .batchOut .. | .copying .. => True
  | _ => False

structure RingOk (r : Spsc.State α) : Prop where
  inv : Spsc.Inv 13 r r.received.length
  batching : Batching r.consumer

/-- Nothing that the logger with queues sees is different. -/
structure SameQueue (r r' : Spsc.State α) : Prop where
  enqueued : r'.enqueued = r.enqueued
  received : r'.received = r.received
  claims : claims r'.consumer = claims r.consumer

lemma ahead_of_batching {c : Spsc.Consumer α} (h : Batching c) : c.ahead = 0 := by
  cases c with
  | destroyed i => cases h
  | _ => rfl

lemma RingOk.of_inv (h : Spsc.Inv 13 r n) (hb : Batching r.consumer) : RingOk r := by
  have hahead := ahead_of_batching hb
  have hle := h.le
  have hlen : r.received.length = n := by
    rw [h.received, List.length_map, List.length_take]
    omega
  exact ⟨hlen ▸ h, hb⟩

lemma ringOk_start (size : ℕ) : RingOk (Spsc.start size 13 : Spsc.State α) :=
  .of_inv (Spsc.inv_start size (by decide) (by decide)) trivial

/-- The entries found are there. -/
lemma RingOk.claims_le (h : RingOk r) :
    r.received.length + claims r.consumer ≤ r.enqueued.length := by
  have hle := h.inv.le
  have hlt := h.inv.pow.pow_lt
  have hroom := h.inv.room
  have hok := h.inv.consumer
  cases hc : r.consumer with
  | copying v base i entries left =>
    rw [hc] at hok
    obtain ⟨-, e, j, he, hcop⟩ := hok
    have hpub := hcop.published
    simp only [claims, he, counter, BitVec.toNat_ofNat]
    have := Nat.mod_le e (2 ^ 64)
    omega
  | _ => exact Nat.le_trans (Nat.le_add_right ..) hle

/-- Once `batch_out` has found entries it has found some, and when all are copied it has them. -/
lemma RingOk.copying (h : RingOk r) {v : List (Option α)} {base : ℕ} {i entries : BitVec 64}
    {left : List (ℕ × ℕ)} (hc : r.consumer = .copying v base i entries left) :
    claims r.consumer ≠ 0 ∧ (left = [] → v.drop base = (claimed r).map some) := by
  have hok := h.inv.consumer
  have hlt := h.inv.pow.pow_lt
  have hroom := h.inv.room
  rw [hc] at hok
  obtain ⟨-, e, j, he, hcop⟩ := hok
  have hpub := hcop.published
  have hpos := hcop.pos
  have hclaims : claims r.consumer = e := by
    rw [hc, claims, he, counter, BitVec.toNat_ofNat, Nat.mod_eq_of_lt (by omega)]
  refine ⟨by omega, fun hnil => ?_⟩
  have hleft := congrArg List.length hcop.left
  rw [hnil, List.length_drop, List.length_map, List.length_range, List.length_nil] at hleft
  have hcopied := hcop.copied
  rwa [List.take_of_length_le (by rw [List.length_drop, hcop.length]; omega),
    show j = e from Nat.le_antisymm hcop.done (by omega), ← hclaims] at hcopied

/-- Of what the logger with queues sees, `emplace` changes nothing but what is enqueued, and this
when it stores the write index. -/
lemma produce_frame {a : Spsc.ProducerAct α} (h : Spsc.produce r a = some r') :
    r'.consumer = r.consumer ∧ r'.received = r.received ∧
      (a ≠ .publish → r'.enqueued = r.enqueued) := by
  cases a with
  | publish =>
    simp only [Spsc.produce] at h
    split at h
    · cases h
      exact ⟨rfl, rfl, fun hne => absurd rfl hne⟩
    · cases h
  | loadRead =>
    simp only [Spsc.produce] at h
    split at h
    · split at h <;> cases h <;> exact ⟨rfl, rfl, fun _ => rfl⟩
    · split at h <;> cases h <;> exact ⟨rfl, rfl, fun _ => rfl⟩
    · cases h
  | _ =>
    simp only [Spsc.produce] at h
    split at h
    · cases h
      exact ⟨rfl, rfl, fun _ => rfl⟩
    · cases h

/-- What `emplace` has been called with stays what it is to put in. -/
lemma value_of_produce {a : Spsc.ProducerAct α} (h : Spsc.produce r a = some r')
    (ha : a = .loadRead ∨ a = .construct) {e : α} (he : value r'.producer = some e) :
    value r.producer = some e := by
  obtain rfl | rfl := ha
  · simp only [Spsc.produce] at h
    split at h
    · next hp => split at h <;> cases h <;> simpa only [hp, value] using he
    · next hp =>
      split at h <;> cases h
      · cases he
      · simpa only [hp, value] using he
    · cases h
  · simp only [Spsc.produce] at h
    split at h
    · next hp =>
      cases h
      simpa only [hp, value] using he
    · cases h

lemma RingOk.produce (h : RingOk r) {a : Spsc.ProducerAct α} (hs : Spsc.produce r a = some r') :
    RingOk r' :=
  .of_inv (h.inv.produce hs) ((produce_frame hs).1 ▸ h.batching)

lemma RingOk.consume (h : RingOk r) {a : Spsc.ConsumerAct α} (hs : Spsc.consume r a = some r')
    (hb : Batching r'.consumer) : RingOk r' :=
  have ⟨_, hinv⟩ := h.inv.consume hs
  .of_inv hinv hb

/-- Neither does `batch_out` show when it is called -/
lemma batchOut_spec {v : List (Option α)} (h : Spsc.consume r (.batchOut v) = some r') :
    r'.producer = r.producer ∧ Batching r'.consumer ∧ SameQueue r r' := by
  obtain ⟨hfree, hr'⟩ := Option.ite_none_right_eq_some.mp h
  cases hr'
  refine ⟨rfl, trivial, rfl, rfl, ?_⟩
  cases hc : r.consumer with
  | copying v base i entries left =>
    rw [hc] at hfree
    cases hfree
  | _ => rfl

/-- or when it copies an entry. -/
lemma copy_spec (h : Spsc.consume r .copy = some r') :
    r'.producer = r.producer ∧ Batching r'.consumer ∧ SameQueue r r' := by
  simp only [Spsc.consume] at h
  split at h
  · next v base i entries d p left hc =>
    cases h
    exact ⟨rfl, trivial, rfl, rfl, by rw [hc]; rfl⟩
  · cases h

/-- It has taken everything out when it has loaded the write index. -/
lemma RingOk.loadWrite (h : RingOk r) (hs : Spsc.consume r .loadWrite = some r') :
    r'.producer = r.producer ∧ r'.enqueued = r.enqueued ∧ claims r.consumer = 0 ∧
      (r'.consumer = .idle ∧ unread r = [] ∧ unread r' = [] ∨
        claims r'.consumer ≠ 0 ∧ Batching r'.consumer ∧ claimed r' = unread r ∧
          unread r' = []) := by
  have hb := h.batching
  have hok := h.inv.consumer
  simp only [Spsc.consume] at hs
  split at hs
  · next i hc =>
    rw [hc] at hb
    cases hb
  · next v i hc =>
    rw [hc] at hok
    have hentries := h.inv.entries_eq hok
    have hunread : unread r = r.enqueued.drop r.received.length := by
      rw [unread, hc]
      rfl
    split at hs
    · next hzero =>
      rw [hzero] at hentries
      have hnil : r.enqueued.drop r.received.length = [] := by
        rw [List.drop_eq_nil_iff]
        have : (0 : BitVec 64).toNat = 0 := rfl
        omega
      cases hs
      exact ⟨rfl, rfl, by rw [hc]; rfl, .inl ⟨rfl, hunread.trans hnil, hnil⟩⟩
    · next hne =>
      cases hs
      refine ⟨rfl, rfl, by rw [hc]; rfl, .inr ⟨fun hzero => hne ?_, trivial, ?_, ?_⟩⟩
      · exact BitVec.eq_of_toNat_eq hzero
      · rw [hunread, claimed]
        exact List.take_of_length_le (by rw [List.length_drop]; exact Nat.le_of_eq hentries.symm)
      · rw [unread, List.drop_eq_nil_iff]
        simp only [claims, hentries]
        omega
  · cases hs

lemma RingOk.length_claimed (h : RingOk r) : (claimed r).length = claims r.consumer := by
  have := h.claims_le
  rw [claimed, List.length_take, List.length_drop]
  omega

/-- What it gives back when all is copied is what it has found. -/
lemma RingOk.release (h : RingOk r) {v : List (Option α)} {base : ℕ} {i entries : BitVec 64}
    {left : List (ℕ × ℕ)} (hc : r.consumer = .copying v base i entries left)
    (hs : Spsc.consume r .release = some r') :
    v.drop base = (claimed r).map some ∧ r'.producer = r.producer ∧ r'.consumer = .idle ∧
      r'.enqueued = r.enqueued ∧ unread r' = unread r := by
  simp only [Spsc.consume, hc] at hs
  split at hs
  · next hdestroyed => cases hdestroyed
  · next hcopying =>
    cases hcopying
    have hdrop := (h.copying hc).2 rfl
    cases hs
    refine ⟨hdrop, rfl, rfl, rfl, ?_⟩
    simp only [unread, hdrop, List.length_append, List.length_map, h.length_claimed, claims,
      Nat.add_zero]
  · cases hs

/-- The producer has found room for an entry that it is about to publish. -/
lemma RingOk.publish (h : RingOk r) (hs : Spsc.produce r .publish = some r') :
    ∃ e, value r.producer = some e ∧ (unread r).length < ringCapacity ∧
      r'.producer = .idle ∧ r'.enqueued = r.enqueued ++ [e] := by
  have hok := h.inv.producer
  simp only [Spsc.produce] at hs
  split at hs
  · next v w hp =>
    rw [hp] at hok
    obtain ⟨-, hroom, -⟩ := hok
    cases hs
    refine ⟨v, by rw [hp]; rfl, ?_, rfl, rfl⟩
    have hcapacity : ringCapacity = 2 ^ 13 - 1 := rfl
    rw [unread, List.length_drop]
    omega
  · cases hs

end Ring

/-! ## The invariant -/

/-- Each ring is used by its thread alone and, when its turn has come, by the logging thread. -/
structure Inv (s : State D) : Prop where
  ring (t : ℕ) : RingOk (s.rings t)
  producer (t : ℕ) (e : LogRingEntry τ) :
    value (s.rings t).producer = some e → s.base.threads t = .emplaceBack e
  consumer (t : ℕ) :
    (s.rings t).consumer ≠ .idle → ∃ w, turn s.base = some w ∧ w.thread = t

namespace Inv

variable {s s' : State D} {b' : LoggerState D} {r' : Spsc.State (LogRingEntry τ)} {t : ℕ}
  {w : Turn}

lemma start (size : ℕ) (D : Datetime τ) (d : D.State) : Inv (start size D d) where
  ring _ := ringOk_start size
  producer _ _ := nofun
  consumer _ h := absurd rfl h

/-- Only the ring whose turn it is can be in `batch_out`. -/
lemma idle_of_ne (h : Inv s) (hturn : turn s.base = some w) (ht : t ≠ w.thread) :
    (s.rings t).consumer = .idle := by
  by_contra hne
  obtain ⟨w', hw', rfl⟩ := h.consumer t hne
  cases hturn.symm.trans hw'
  exact ht rfl

lemma claims_eq_zero (h : Inv s) (hturn : turn s.base = some w)
    {rings : ℕ → Spsc.State (LogRingEntry τ)} (hrings : ∀ u, u ≠ w.thread → rings u = s.rings u)
    (hzero : claims (rings w.thread).consumer = 0) (u : ℕ) : claims (rings u).consumer = 0 := by
  by_cases hu : u = w.thread
  · rw [hu, hzero]
  · rw [hrings u hu, h.idle_of_ne hturn hu]
    rfl

/-- A step on the ring of thread `t`. -/
lemma update (h : Inv s) (hring : RingOk r')
    (hproducer : ∀ e, value r'.producer = some e → b'.threads t = .emplaceBack e)
    (hconsumer : r'.consumer ≠ .idle → ∃ w, turn b' = some w ∧ w.thread = t)
    (hthreads : ∀ u, u ≠ t → b'.threads u = s.base.threads u)
    (hturn : ∀ u, u ≠ t → (s.rings u).consumer ≠ .idle → turn b' = turn s.base) :
    Inv { base := b', rings := Function.update s.rings t r' } where
  ring u := by
    by_cases hu : u = t
    · subst hu
      simpa only [Function.update_self] using hring
    · simpa only [Function.update_of_ne hu] using h.ring u
  producer u e he := by
    by_cases hu : u = t
    · subst hu
      simp only [Function.update_self] at he
      exact hproducer e he
    · simp only [Function.update_of_ne hu] at he
      rw [hthreads u hu]
      exact h.producer u e he
  consumer u hne := by
    by_cases hu : u = t
    · subst hu
      simp only [Function.update_self] at hne
      exact hconsumer hne
    · simp only [Function.update_of_ne hu] at hne
      rw [hturn u hu hne]
      exact h.consumer u hne

/-- `batch_out` returns, and the turn is over. -/
lemma turn_over (h : Inv s) (hturn : turn s.base = some w) (hring : RingOk r')
    (hproducer : r'.producer = (s.rings w.thread).producer) (hconsumer : r'.consumer = .idle)
    (hthreads : b'.threads = s.base.threads) :
    Inv { base := b', rings := Function.update s.rings w.thread r' } := by
  refine h.update hring (fun e he => ?_) (fun hne => absurd hconsumer hne) (fun u _ => ?_)
    fun u hu hne => absurd (h.idle_of_ne hturn hu) hne
  · rw [hthreads]
    exact h.producer _ e (hproducer ▸ he)
  · rw [hthreads]

end Inv

/-! ## Steps -/

section Steps

variable {s s' : State D} {w : Turn}

lemma carrying_eq_none (h : ∀ t, claims (s.rings t).consumer = 0) : carrying s = none := by
  unfold carrying
  cases hturn : turn s.base with
  | none => rfl
  | some w =>
    rw [Option.filter_some, if_neg]
    simp only [h, ne_eq, not_true_eq_false, decide_false, Bool.false_eq_true, not_false_eq_true]

lemma view_of_idle (h : ∀ t, claims (s.rings t).consumer = 0) : view s = queues s := by
  unfold view
  rw [carrying_eq_none h]

lemma view_of_turn (hturn : turn s.base = some w)
    (hclaims : claims (s.rings w.thread).consumer ≠ 0) :
    view s = { queues s with
      backlogs := s.base.backlogs ++ (claimed (s.rings w.thread)).map fun h => (w.thread, h)
      logger := w.next false } := by
  have hcarrying : carrying s = some w := by
    unfold carrying
    rw [hturn, Option.filter_some, if_pos (decide_eq_true hclaims)]
  unfold view
  rw [hcarrying]

lemma view_congr (hbase : s'.base = s.base) (hrings : ∀ t, SameQueue (s.rings t) (s'.rings t)) :
    view s' = view s := by
  have hunread : ∀ t, unread (s'.rings t) = unread (s.rings t) := fun t => by
    rw [unread, unread, (hrings t).enqueued, (hrings t).received, (hrings t).claims]
  have hclaimed : ∀ t, claimed (s'.rings t) = claimed (s.rings t) := fun t => by
    rw [claimed, claimed, (hrings t).enqueued, (hrings t).received, (hrings t).claims]
  simp only [view, carrying, queues, hbase, hunread, hclaimed, fun t => (hrings t).enqueued,
    fun t => (hrings t).claims]

/-- A step on a ring that does not show. -/
lemma view_setRing {t : ℕ} {r' : Spsc.State (LogRingEntry τ)} (h : SameQueue (s.rings t) r') :
    view (s.setRing t r') = view s := by
  refine view_congr rfl fun u => ?_
  by_cases hu : u = t
  · subst hu
    simpa only [State.setRing, Function.update_self] using h
  · simp only [State.setRing, Function.update_of_ne hu]
    exact ⟨rfl, rfl, rfl⟩

/-- What accesses no ring is the same step of the logger with queues. -/
lemma shared_simulates (h : Inv s) {a : LoggerState.Act τ} {b' : LoggerState D}
    (hacc : accessesRing s.base a = false) (hs : LoggerState.step s.base a = some b') :
    Inv { s with base := b' } ∧
      LoggerState.step (view s) a = some (view { s with base := b' }) := by
  have hturn : ∀ w, turn s.base = some w → turn b' = some w := fun w hw =>
    have ⟨hlogger, _, hrings, _⟩ := step_inTurn hw hacc hs
    turn_of_registered hw hlogger hrings
  refine ⟨⟨h.ring, fun t e he => step_emplaceBack hacc hs (h.producer t e he), fun t hne => ?_⟩,
    ?_⟩
  · obtain ⟨w, hw, hwt⟩ := h.consumer t hne
    exact ⟨w, hturn w hw, hwt⟩
  by_cases hidle : ∀ t, claims (s.rings t).consumer = 0
  · rw [view_of_idle hidle, view_of_idle (s := { s with base := b' }) hidle]
    change LoggerState.step (withQueues _ _ s.base) a = _
    rw [step_withQueues hacc, hs]
    rfl
  · obtain ⟨t, ht⟩ := not_forall.mp hidle
    obtain ⟨w, hw, rfl⟩ := h.consumer t fun hc => ht (by rw [hc]; rfl)
    obtain ⟨-, hbacklogs, -, hstep⟩ := step_inTurn hw hacc hs
    rw [view_of_turn hw ht, view_of_turn (s := { s with base := b' }) (hturn w hw) ht]
    change LoggerState.step (withQueues _ _ { s.base with backlogs := _, logger := _ }) a = _
    rw [step_withQueues (accessesRing_inTurn hw hacc _), Turn.next, hstep, hbacklogs]
    rfl

/-- The store of the write index puts the entry into the queue. -/
lemma publish_simulates (h : Inv s) {t : ℕ} {e : LogRingEntry τ}
    {r' : Spsc.State (LogRingEntry τ)} (ht : s.base.threads t = .emplaceBack e)
    (hs : Spsc.produce (s.rings t) .publish = some r') {s' : State D}
    (hs' : s' = ⟨s.base.setThread t (.notifyOne e), Function.update s.rings t r'⟩) :
    Inv s' ∧ LoggerState.step (view s) (.thread t .emplaceBack) = some (view s') := by
  obtain ⟨e', he', hroom, hidle, henqueued⟩ := (h.ring t).publish hs
  obtain ⟨hconsumer, hreceived, -⟩ := produce_frame hs
  cases ht.symm.trans (h.producer t e' he')
  have hle := (h.ring t).claims_le
  have hunread : unread r' = unread (s.rings t) ++ [e] := by
    rw [unread, unread, henqueued, hreceived, hconsumer, List.drop_append_of_le_length hle]
  have hclaimed : claimed r' = claimed (s.rings t) := by
    rw [claimed, claimed, henqueued, hreceived, hconsumer,
      List.drop_append_of_le_length (by omega),
      List.take_append_of_le_length (by rw [List.length_drop]; omega)]
  subst hs'
  refine ⟨h.update ((h.ring t).produce hs) (fun e he => ?_) (fun hne => ?_) (fun u hu => ?_)
    fun _ _ _ => rfl, ?_⟩
  · rw [hidle] at he
    cases he
  · exact h.consumer t (hconsumer ▸ hne)
  · exact Function.update_of_ne hu _ _
  -- The queues are those before with the entry in one of them, and no other field changes.
  have hring : (fun u => unread (Function.update s.rings t r' u))
      = Function.update (fun u => unread (s.rings u)) t (unread (s.rings t) ++ [e]) := by
    rw [← hunread]
    exact Function.comp_update unread s.rings t r'
  have henq : (fun u => (Function.update s.rings t r' u).enqueued)
      = Function.update (fun u => (s.rings u).enqueued) t ((s.rings t).enqueued ++ [e]) := by
    rw [← henqueued]
    exact Function.comp_update Spsc.State.enqueued s.rings t r'
  have hsame : ∀ u, claims (Function.update s.rings t r' u).consumer
      = claims (s.rings u).consumer ∧
        claimed (Function.update s.rings t r' u) = claimed (s.rings u) := fun u => by
    by_cases hu : u = t
    · subst hu
      rw [Function.update_self, hconsumer, hclaimed]
      exact ⟨rfl, rfl⟩
    · rw [Function.update_of_ne hu]
      exact ⟨rfl, rfl⟩
  by_cases hzero : ∀ u, claims (s.rings u).consumer = 0
  · rw [view_of_idle hzero, view_of_idle fun u => (hsame u).1.trans (hzero u)]
    refine (step_room (b := queues s) ht hroom).trans ?_
    simp only [queues, hring, henq]
    rfl
  · obtain ⟨u, hu⟩ := not_forall.mp hzero
    obtain ⟨w, hw, rfl⟩ := h.consumer u fun hc => hu (by rw [hc]; rfl)
    have hu' : claims (Function.update s.rings t r' w.thread).consumer ≠ 0 := by
      rwa [(hsame w.thread).1]
    rw [view_of_turn hw hu,
      view_of_turn (s := ⟨s.base.setThread t (.notifyOne e), Function.update s.rings t r'⟩) hw hu']
    refine (step_room (b := { queues s with backlogs := _, logger := _ }) ht hroom).trans ?_
    simp only [queues, hring, henq, (hsame w.thread).2]
    rfl

/-- What a step on one ring leaves as it was. -/
lemma comp_update_same {β : Type} (f : Spsc.State (LogRingEntry τ) → β) {t : ℕ}
    {r' : Spsc.State (LogRingEntry τ)} (h : f r' = f (s.rings t)) :
    (fun u => f (Function.update s.rings t r' u)) = fun u => f (s.rings u) := by
  refine (Function.comp_update f s.rings t r').trans ?_
  rw [h]
  exact Function.update_eq_self t fun u => f (s.rings u)

/-- The load of the write index takes everything out of the queue. -/
lemma loadWrite_simulates (h : Inv s) (hturn : turn s.base = some w)
    {r' : Spsc.State (LogRingEntry τ)}
    (hs : Spsc.consume (s.rings w.thread) .loadWrite = some r')
    (hs' : s' = match r'.consumer with
      | .idle => ⟨{ s.base with logger := w.next w.empty }, Function.update s.rings w.thread r'⟩
      | _ => ⟨s.base, Function.update s.rings w.thread r'⟩) :
    Inv s' ∧ LoggerState.step (view s) .logger = some (view s') := by
  obtain ⟨hproducer, henqueued, hzero, hfound⟩ := (h.ring w.thread).loadWrite hs
  have hother : ∀ u, u ≠ w.thread → Function.update s.rings w.thread r' u = s.rings u :=
    fun u hu => Function.update_of_ne hu _ _
  have henq := comp_update_same (s := s) Spsc.State.enqueued henqueued
  have hview : view s = queues s := view_of_idle (h.claims_eq_zero hturn (fun _ _ => rfl) hzero)
  have hstep : LoggerState.step (view s) .logger = some { queues s with
      ring := Function.update (queues s).ring w.thread []
      backlogs := s.base.backlogs ++ (unread (s.rings w.thread)).map fun h => (w.thread, h)
      logger := w.next (w.empty && (unread (s.rings w.thread)).isEmpty) } := by
    rw [hview]
    exact step_turn hturn
  have hring : unread r' = [] → (fun u => unread (Function.update s.rings w.thread r' u))
      = Function.update (queues s).ring w.thread [] := fun hnil =>
    hnil ▸ Function.comp_update unread s.rings w.thread r'
  obtain ⟨hidle, hnil, hnil'⟩ | ⟨hclaims, hbatching, hclaimed, hnil'⟩ := hfound
  · simp only [hidle] at hs'
    subst hs'
    have hzero' : claims (Function.update s.rings w.thread r' w.thread).consumer = 0 := by
      rw [Function.update_self, hidle]
      rfl
    refine ⟨h.turn_over hturn ((h.ring w.thread).consume hs (hidle ▸ trivial)) hproducer hidle
      rfl, ?_⟩
    rw [hstep, view_of_idle (h.claims_eq_zero hturn hother hzero'), hnil]
    simp only [queues, hring hnil', henq, List.map_nil, List.append_nil, List.isEmpty_nil,
      Bool.and_true]
  · have hne : r'.consumer ≠ .idle := fun hidle => hclaims (by rw [hidle]; rfl)
    have hs' : s' = s.setRing w.thread r' := by
      rw [hs']
      split
      · next hidle => exact absurd hidle hne
      · rfl
    subst hs'
    have hok := (h.ring w.thread).consume hs hbatching
    have hsome : (unread (s.rings w.thread)).isEmpty = false := by
      rw [List.isEmpty_eq_false_iff, ← hclaimed, ← List.length_pos_iff, hok.length_claimed]
      omega
    refine ⟨h.update hok (fun e he => h.producer _ e (hproducer ▸ he)) (fun _ => ⟨w, hturn, rfl⟩)
      (fun _ _ => rfl) fun _ _ _ => rfl, ?_⟩
    rw [hstep, view_of_turn (s := s.setRing w.thread r') hturn (by rwa [State.setRing_self]),
      State.setRing_self, hclaimed, hsome]
    simp only [queues, State.setRing, hring hnil', henq, Bool.and_false]

/-- The return of `batch_out` does not show. -/
lemma release_simulates (h : Inv s) (hturn : turn s.base = some w)
    {r' : Spsc.State (LogRingEntry τ)} {v : List (Option (LogRingEntry τ))} {base : ℕ}
    {i entries : BitVec 64} {left : List (ℕ × ℕ)} {hs : List (LogRingEntry τ)}
    (hc : (s.rings w.thread).consumer = .copying v base i entries left)
    (hmap : (v.drop base).mapM id = some hs)
    (hrelease : Spsc.consume (s.rings w.thread) .release = some r')
    (hs' : s' = ⟨{ s.base with
        backlogs := s.base.backlogs ++ hs.map fun h => (w.thread, h)
        logger := w.next false }, Function.update s.rings w.thread r'⟩) :
    Inv s' ∧ view s' = view s := by
  obtain ⟨hdrop, hproducer, hidle, henqueued, hunread⟩ := (h.ring w.thread).release hc hrelease
  have hother : ∀ u, u ≠ w.thread → Function.update s.rings w.thread r' u = s.rings u :=
    fun u hu => Function.update_of_ne hu _ _
  have hzero : claims (Function.update s.rings w.thread r' w.thread).consumer = 0 := by
    rw [Function.update_self, hidle]
    rfl
  have hclaimed : hs = claimed (s.rings w.thread) := by
    rw [hdrop, List.mapM_map] at hmap
    exact (Option.some_inj.mp ((List.mapM_pure (m := Option) (f := id)).symm.trans hmap)).symm.trans
      (List.map_id _)
  subst hs'
  refine ⟨h.turn_over hturn ((h.ring w.thread).consume hrelease (hidle ▸ trivial)) hproducer hidle
    rfl, ?_⟩
  rw [view_of_idle (h.claims_eq_zero hturn hother hzero),
    view_of_turn hturn ((h.ring w.thread).copying hc).1, hclaimed]
  simp only [queues, comp_update_same unread hunread,
    comp_update_same Spsc.State.enqueued henqueued]

/-- A step of `emplace` that does not show. -/
lemma produce_quiet (h : Inv s) {t : ℕ} {a : Spsc.ProducerAct (LogRingEntry τ)}
    (ha : a ≠ .publish) {r' : Spsc.State (LogRingEntry τ)}
    (hr' : Spsc.produce (s.rings t) a = some r')
    (hvalue : ∀ e, value r'.producer = some e → s.base.threads t = .emplaceBack e) :
    Inv (s.setRing t r') ∧ view (s.setRing t r') = view s := by
  obtain ⟨hconsumer, hreceived, henqueued⟩ := produce_frame hr'
  exact ⟨h.update ((h.ring t).produce hr') hvalue (fun hne => h.consumer t (hconsumer ▸ hne))
    (fun _ _ => rfl) fun _ _ _ => rfl, view_setRing ⟨henqueued ha, hreceived, by rw [hconsumer]⟩⟩

/-- A step of `batch_out` that does not show. -/
lemma consume_quiet (h : Inv s) (hturn : turn s.base = some w)
    {a : Spsc.ConsumerAct (LogRingEntry τ)} {r' : Spsc.State (LogRingEntry τ)}
    (hr' : Spsc.consume (s.rings w.thread) a = some r')
    (hspec : r'.producer = (s.rings w.thread).producer ∧ Batching r'.consumer ∧
      SameQueue (s.rings w.thread) r') :
    Inv (s.setRing w.thread r') ∧ view (s.setRing w.thread r') = view s := by
  obtain ⟨hproducer, hbatching, hsame⟩ := hspec
  exact ⟨h.update ((h.ring w.thread).consume hr' hbatching)
    (fun e he => h.producer _ e (hproducer ▸ he)) (fun _ => ⟨w, hturn, rfl⟩) (fun _ _ => rfl)
    fun _ _ _ => rfl, view_setRing hsame⟩

/-- A step is one of the logger with queues, or does not show there. -/
lemma step_simulates {a : Act τ} (h : Inv s) (hs : step s a = some s') :
    Inv s' ∧ (view s' = view s ∨ ∃ b, LoggerState.machine.step (view s) b = some (view s')) := by
  cases a with
  | shared a =>
    obtain ⟨hacc, hs⟩ := Option.ite_none_left_eq_some.mp hs
    obtain ⟨b', hb', rfl⟩ := Option.map_eq_some_iff.mp hs
    obtain ⟨hinv, hstep⟩ := shared_simulates h (Bool.eq_false_of_not_eq_true hacc) hb'
    exact ⟨hinv, .inr ⟨a, hstep⟩⟩
  | emplace t =>
    simp only [step] at hs
    split at hs
    · next e ht =>
      obtain ⟨r', hr', rfl⟩ := Option.map_eq_some_iff.mp hs
      have hne : Spsc.ProducerAct.emplace e ≠ .publish := fun ha => by cases ha
      refine (produce_quiet h hne hr' fun e' he' => ?_).imp_right .inl
      simp only [Spsc.produce] at hr'
      split at hr'
      · cases hr'
        cases he'
        exact ht
      · cases hr'
    · cases hs
  | loadRead t =>
    obtain ⟨r', hr', rfl⟩ := Option.map_eq_some_iff.mp hs
    have hne : (Spsc.ProducerAct.loadRead : Spsc.ProducerAct (LogRingEntry τ)) ≠ .publish :=
      fun ha => by cases ha
    exact (produce_quiet h hne hr' fun e he =>
      h.producer t e (value_of_produce hr' (.inl rfl) he)).imp_right .inl
  | construct t =>
    obtain ⟨r', hr', rfl⟩ := Option.map_eq_some_iff.mp hs
    have hne : (Spsc.ProducerAct.construct : Spsc.ProducerAct (LogRingEntry τ)) ≠ .publish :=
      fun ha => by cases ha
    exact (produce_quiet h hne hr' fun e he =>
      h.producer t e (value_of_produce hr' (.inr rfl) he)).imp_right .inl
  | publish t =>
    simp only [step] at hs
    split at hs
    · next e ht =>
      obtain ⟨t', ht', hs⟩ := Option.bind_eq_some_iff.mp hs
      obtain ⟨r', hr', rfl⟩ := Option.map_eq_some_iff.mp ht'
      obtain ⟨hinv, hstep⟩ := publish_simulates h ht hr' (Option.some_inj.mp hs).symm
      exact ⟨hinv, .inr ⟨.thread t .emplaceBack, hstep⟩⟩
    · cases hs
  | batchOut =>
    obtain ⟨w, hturn, hs⟩ := Option.bind_eq_some_iff.mp hs
    obtain ⟨r', hr', rfl⟩ := Option.map_eq_some_iff.mp hs
    exact (consume_quiet h hturn hr' (batchOut_spec hr')).imp_right .inl
  | loadWrite =>
    obtain ⟨w, hturn, hs⟩ := Option.bind_eq_some_iff.mp hs
    obtain ⟨t', ht', hs⟩ := Option.bind_eq_some_iff.mp hs
    obtain ⟨r', hr', rfl⟩ := Option.map_eq_some_iff.mp ht'
    obtain ⟨hinv, hstep⟩ : Inv s' ∧ LoggerState.step (view s) .logger = some (view s') :=
      loadWrite_simulates h hturn hr' (by
        simp only [State.setRing, Function.update_self] at hs
        split at hs <;> exact (Option.some_inj.mp hs).symm)
    exact ⟨hinv, .inr ⟨.logger, hstep⟩⟩
  | copy =>
    obtain ⟨w, hturn, hs⟩ := Option.bind_eq_some_iff.mp hs
    obtain ⟨r', hr', rfl⟩ := Option.map_eq_some_iff.mp hs
    exact (consume_quiet h hturn hr' (copy_spec hr')).imp_right .inl
  | release =>
    obtain ⟨w, hturn, hs⟩ := Option.bind_eq_some_iff.mp hs
    split at hs
    · next v base i entries left hc =>
      obtain ⟨es, hmap, hs⟩ := Option.bind_eq_some_iff.mp hs
      obtain ⟨t', ht', hs⟩ := Option.bind_eq_some_iff.mp hs
      obtain ⟨r', hr', rfl⟩ := Option.map_eq_some_iff.mp ht'
      exact (release_simulates h hturn hc hmap hr' (Option.some_inj.mp hs).symm).imp_right .inl
    · cases hs

end Steps

/-! ## What a step leaves alone -/

section Leaves

variable {s s' : State D} {a : Act τ} {w : Turn} {t : ℕ}

lemma consume_producer {r r' : Spsc.State (LogRingEntry τ)}
    {a : Spsc.ConsumerAct (LogRingEntry τ)} (h : Spsc.consume r a = some r') :
    r'.producer = r.producer := by
  cases a with
  | loadWrite =>
    simp only [Spsc.consume] at h
    split at h
    · split at h <;> cases h <;> rfl
    · split at h <;> cases h <;> rfl
    · cases h
  | front =>
    obtain ⟨-, h⟩ := Option.ite_none_right_eq_some.mp h
    cases h
    rfl
  | batchOut v =>
    obtain ⟨-, h⟩ := Option.ite_none_right_eq_some.mp h
    cases h
    rfl
  | _ =>
    simp only [Spsc.consume] at h
    split at h <;> cases h <;> rfl

/-- A step that accesses a ring is one of `emplace` on the ring of its thread, or one of `batch_out`
on the ring whose turn it is. -/
lemma step_ring (hs : step s a = some s') (ha : ∀ b, a ≠ .shared b) :
    s'.base.logRings = s.base.logRings ∧ ∃ u r', s'.rings = Function.update s.rings u r' ∧
      ((∃ b, a.thread = some u ∧ Spsc.produce (s.rings u) b = some r' ∧
          turn s'.base = turn s.base ∧ (s'.base.threads = s.base.threads ∨
            ∃ e, s'.base.threads = Function.update s.base.threads u (.notifyOne e))) ∨
        ∃ b w, turn s.base = some w ∧ w.thread = u ∧ Spsc.consume (s.rings u) b = some r' ∧
          s'.base.threads = s.base.threads ∧
          (a = .batchOut ∨ (s.rings u).consumer ≠ .idle)) := by
  cases a with
  | shared b => exact absurd rfl (ha b)
  | emplace u =>
    simp only [step] at hs
    split at hs
    · obtain ⟨r', hr', rfl⟩ := Option.map_eq_some_iff.mp hs
      exact ⟨rfl, u, r', rfl, .inl ⟨_, rfl, hr', rfl, .inl rfl⟩⟩
    · cases hs
  | loadRead u =>
    obtain ⟨r', hr', rfl⟩ := Option.map_eq_some_iff.mp hs
    exact ⟨rfl, u, r', rfl, .inl ⟨_, rfl, hr', rfl, .inl rfl⟩⟩
  | construct u =>
    obtain ⟨r', hr', rfl⟩ := Option.map_eq_some_iff.mp hs
    exact ⟨rfl, u, r', rfl, .inl ⟨_, rfl, hr', rfl, .inl rfl⟩⟩
  | publish u =>
    simp only [step] at hs
    split at hs
    · obtain ⟨t', ht', hs⟩ := Option.bind_eq_some_iff.mp hs
      obtain ⟨r', hr', rfl⟩ := Option.map_eq_some_iff.mp ht'
      cases hs
      exact ⟨rfl, u, r', rfl, .inl ⟨_, rfl, hr', rfl, .inr ⟨_, rfl⟩⟩⟩
    · cases hs
  | batchOut =>
    obtain ⟨w, hw, hs⟩ := Option.bind_eq_some_iff.mp hs
    obtain ⟨r', hr', rfl⟩ := Option.map_eq_some_iff.mp hs
    exact ⟨rfl, _, r', rfl, .inr ⟨_, w, hw, rfl, hr', rfl, .inl rfl⟩⟩
  | loadWrite =>
    obtain ⟨w, hw, hs⟩ := Option.bind_eq_some_iff.mp hs
    obtain ⟨t', ht', hs⟩ := Option.bind_eq_some_iff.mp hs
    obtain ⟨r', hr', rfl⟩ := Option.map_eq_some_iff.mp ht'
    have hbusy : (s.rings w.thread).consumer ≠ .idle := fun hidle => by
      simp [Spsc.consume, hidle] at hr'
    split at hs
    all_goals
      cases hs
      exact ⟨rfl, _, r', rfl, .inr ⟨_, w, hw, rfl, hr', rfl, .inr hbusy⟩⟩
  | copy =>
    obtain ⟨w, hw, hs⟩ := Option.bind_eq_some_iff.mp hs
    obtain ⟨r', hr', rfl⟩ := Option.map_eq_some_iff.mp hs
    have hbusy : (s.rings w.thread).consumer ≠ .idle := fun hidle => by
      simp [Spsc.consume, hidle] at hr'
    exact ⟨rfl, _, r', rfl, .inr ⟨_, w, hw, rfl, hr', rfl, .inr hbusy⟩⟩
  | release =>
    obtain ⟨w, hw, hs⟩ := Option.bind_eq_some_iff.mp hs
    split at hs
    · next v base i entries left hc =>
      obtain ⟨es, -, hs⟩ := Option.bind_eq_some_iff.mp hs
      obtain ⟨t', ht', hs⟩ := Option.bind_eq_some_iff.mp hs
      obtain ⟨r', hr', rfl⟩ := Option.map_eq_some_iff.mp ht'
      have hbusy : (s.rings w.thread).consumer ≠ .idle := fun hidle => by
        rw [hidle] at hc
        cases hc
      cases hs
      exact ⟨rfl, _, r', rfl, .inr ⟨_, w, hw, rfl, hr', rfl, .inr hbusy⟩⟩
    · cases hs

/-- A ring whose turn has come waits for `batch_out`. -/
lemma step_atRing (hs : step s a = some s') (ha : a ≠ .batchOut) (hturn : turn s.base = some w)
    (hidle : (s.rings w.thread).consumer = .idle) :
    turn s'.base = some w ∧ (s'.rings w.thread).consumer = .idle := by
  by_cases hshared : ∃ b, a = .shared b
  · obtain ⟨b, rfl⟩ := hshared
    obtain ⟨hacc, hs⟩ := Option.ite_none_left_eq_some.mp hs
    obtain ⟨b', hb', rfl⟩ := Option.map_eq_some_iff.mp hs
    obtain ⟨hlogger, -, hrings, -⟩ := step_inTurn hturn (Bool.eq_false_of_not_eq_true hacc) hb'
    exact ⟨turn_of_registered hturn hlogger hrings, hidle⟩
  · obtain ⟨-, u, r', hrings, ⟨b, -, hr', hturn', -⟩ | ⟨b, w', hw', rfl, -, -, hbusy⟩⟩ :=
      step_ring hs fun b hb => hshared ⟨b, hb⟩
    · refine ⟨hturn'.trans hturn, ?_⟩
      by_cases hu : w.thread = u
      · subst hu
        rw [hrings, Function.update_self, (produce_frame hr').1, hidle]
      · rw [hrings, Function.update_of_ne hu, hidle]
    · cases hturn.symm.trans hw'
      exact absurd hidle (hbusy.resolve_left ha)

/-- A thread is where it was after a step of another party. -/
lemma step_other (hs : step s a = some s') (ha : a.thread ≠ some t) :
    s'.base.threads t = s.base.threads t ∧ (s'.rings t).producer = (s.rings t).producer := by
  by_cases hshared : ∃ b, a = .shared b
  · obtain ⟨b, rfl⟩ := hshared
    obtain ⟨-, hs⟩ := Option.ite_none_left_eq_some.mp hs
    obtain ⟨b', hb', rfl⟩ := Option.map_eq_some_iff.mp hs
    refine ⟨?_, rfl⟩
    cases b with
    | thread u b =>
      have hu : t ≠ u := fun hu => ha (by rw [hu]; rfl)
      exact (LoggerState.threadStep_frame hb').2.2.1 t hu
    | logger => rw [(LoggerState.loggerStep_frame hb').1]
    | _ =>
      obtain ⟨-, hb'⟩ := Option.ite_none_right_eq_some.mp hb'
      cases hb'
      rfl
  · obtain ⟨-, u, r', hrings, ⟨b, hu, hr', -, hthreads⟩ | ⟨b, w, -, rfl, hr', hthreads, -⟩⟩ :=
      step_ring hs fun b hb => hshared ⟨b, hb⟩
    · have hne : t ≠ u := fun hu' => ha (by rw [hu, hu'])
      rw [hrings, Function.update_of_ne hne]
      refine ⟨?_, rfl⟩
      obtain hthreads | ⟨e, hthreads⟩ := hthreads
      · rw [hthreads]
      · rw [hthreads, Function.update_of_ne hne]
    · refine ⟨by rw [hthreads], ?_⟩
      by_cases hu : t = w.thread
      · subst hu
        rw [hrings, Function.update_self, consume_producer hr']
      · rw [hrings, Function.update_of_ne hu]

/-- Rings are added by `append` alone. -/
lemma step_logRings (hs : step s a = some s') (ha : ∀ u, a ≠ .shared (.thread u .register)) :
    s'.base.logRings = s.base.logRings := by
  by_cases hshared : ∃ b, a = .shared b
  · obtain ⟨b, rfl⟩ := hshared
    obtain ⟨-, hs⟩ := Option.ite_none_left_eq_some.mp hs
    obtain ⟨b', hb', rfl⟩ := Option.map_eq_some_iff.mp hs
    cases b with
    | thread u b =>
      exact (LoggerState.threadStep_frame hb').2.2.2 fun hb => ha u (by rw [hb])
    | logger => exact (LoggerState.loggerStep_frame hb').2.1
    | _ =>
      obtain ⟨-, hb'⟩ := Option.ite_none_right_eq_some.mp hb'
      cases hb'
      rfl
  · exact (step_ring hs fun b hb => hshared ⟨b, hb⟩).1

end Leaves

/-! ## Runs -/

section Runs

variable {s : State D}

lemma view_start (size : ℕ) (D : Datetime τ) (d : D.State) :
    view (start size D d) = LoggerState.start D d :=
  view_of_idle (s := start size D d) fun _ => rfl

lemma run_simulates {size : ℕ} {d₀ : D.State} (h : machine.Reachable (start size D d₀) s) :
    Inv s ∧ LoggerState.machine.Reachable (LoggerState.start D d₀) (view s) := by
  obtain ⟨as, hrun⟩ := h
  have hsim := machine.run_simulates LoggerState.machine (fun _ _ _ => step_simulates) as
    (Inv.start size D d₀) hrun
  rwa [view_start] at hsim

end Runs

end Coring.Logging.RingLogger
