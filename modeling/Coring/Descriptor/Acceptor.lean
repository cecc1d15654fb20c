import Mathlib.Data.Int.Notation
import Coring.Framework.Machine

/-!
# Accepting with a reserve

When the system is out of descriptors a connection cannot even be accepted in order to be closed.
`acceptor::better_enable` therefore keeps a descriptor on `/dev/null` in reserve, and
`acceptor::accept` (`include/coring/acceptor.hpp`) gives it up when the kernel answers `-ENFILE`:
it closes the reserve, accepts once more, closes what it has accepted and opens the reserve again.

The calls of `accept` follow one another, and the kernel answers each of their requests as it
likes.  The function ends in three ways it should not.  A call that `-EINTR` has interrupted
returns a connection on that number; one that has closed the connection it accepted returns this
connection; and if the second accept brings nothing to close the reserve is not opened again, while
`backupfd_` keeps its number.  `sound_iff` is the exact condition on the answers.
-/

namespace Coring.Acceptor

def EINTR : ℤ := 4

def ENFILE : ℤ := 23

/-- How a call of `accept` ends. -/
inductive Outcome
  /-- With a connection on `fd`; the values the accept requests of the call have returned, and
  whether `fd` has been closed. -/
  | returned (fd : ℤ) (accepted : List ℤ) (closed : Bool)
  /-- With a `std::system_error` of this code. -/
  | threw (code : ℤ)
  deriving Repr, DecidableEq

structure State where
  /-- `backupfd_`. -/
  backupfd : ℤ
  /-- It is the number of a descriptor that the acceptor has opened and not closed since. -/
  backupOpen : Bool
  /-- How the calls so far have ended. -/
  outcomes : List Outcome
  deriving Repr, DecidableEq

/-- After `better_enable` has opened the reserve as `fd`. -/
def start (fd : ℕ) : State := ⟨fd, true, []⟩

/-- The answers of the kernel to the requests of one call, as far as it makes them.  The results
of the close requests are not looked at; what matters is whether the descriptor was released. -/
structure Answers where
  accept : ℤ
  closeBackup : Bool := true
  acceptAgain : ℤ := 0
  closeConn : Bool := true
  openat : ℤ := 0
  deriving Repr, DecidableEq

/-- The end of `accept`, with `connfd` as it is then. -/
def finish (connfd : ℤ) (accepted : List ℤ) (closed : Bool) : Outcome :=
  if connfd < 0 ∧ connfd ≠ -EINTR then .threw (-connfd) else .returned connfd accepted closed

/-- `accept()`: the acceptor it leaves, and how it ends. -/
def accept (s : State) (k : Answers) : State × Outcome :=
  if k.accept = -ENFILE then
    let s := { s with backupOpen := s.backupOpen && !k.closeBackup }
    let connfd := k.acceptAgain
    if connfd > 0 then
      let s := { s with backupfd := k.openat, backupOpen := decide (0 ≤ k.openat) }
      (s, finish connfd [k.accept, connfd] k.closeConn)
    else (s, finish connfd [k.accept, connfd] false)
  else (s, finish k.accept [k.accept] false)

/-- Calls of `accept`, one after the other. -/
def machine : Machine State Answers where
  step s k :=
    let (s', outcome) := accept s k
    some { s' with outcomes := s'.outcomes ++ [outcome] }

/-- A connection is returned on a descriptor that the call has accepted and that is open; in every
other case the call throws. -/
def Outcome.Sound : Outcome → Prop
  | .returned fd accepted closed => 0 ≤ fd ∧ fd ∈ accepted ∧ closed = false
  | .threw _ => True

instance : ∀ o : Outcome, Decidable o.Sound
  | .returned fd accepted closed =>
      inferInstanceAs (Decidable (0 ≤ fd ∧ fd ∈ accepted ∧ closed = false))
  | .threw _ => isTrue trivial

/-- `backupfd_` is open or negative. -/
def State.BackupValid (s : State) : Prop := s.backupOpen = true ∨ s.backupfd < 0

instance (s : State) : Decidable s.BackupValid := inferInstanceAs (Decidable (_ ∨ _))

def Sound (s : State) : Prop := (∀ o ∈ s.outcomes, o.Sound) ∧ s.BackupValid

instance (s : State) : Decidable (Sound s) := inferInstanceAs (Decidable (_ ∧ _))

/-- No accept is interrupted; and if the first one finds the system out of descriptors, either the
second brings a descriptor that closing does not release, or there was no reserve to release. -/
def Harmless (s : State) (k : Answers) : Prop :=
  k.accept ≠ -EINTR ∧
  (k.accept = -ENFILE → k.acceptAgain ≠ -EINTR ∧
    (0 < k.acceptAgain → k.closeConn = false) ∧
    (k.acceptAgain ≤ 0 → s.backupfd < 0 ∨ k.closeBackup = false))

instance (s : State) (k : Answers) : Decidable (Harmless s k) := inferInstanceAs (Decidable (_ ∧ _))

lemma finish_sound_iff {connfd : ℤ} {accepted : List ℤ} {closed : Bool} (hmem : connfd ∈ accepted) :
    (finish connfd accepted closed).Sound ↔
      connfd ≠ -EINTR ∧ (0 ≤ connfd → closed = false) := by
  unfold finish
  split
  · next hneg =>
    exact iff_of_true trivial ⟨hneg.2, fun hpos => absurd hneg.1 (Int.not_lt.mpr hpos)⟩
  · next hret =>
    simp only [Outcome.Sound, hmem, true_and, EINTR] at hret ⊢
    constructor
    · rintro ⟨hpos, hclosed⟩
      exact ⟨by omega, fun _ => hclosed⟩
    · rintro ⟨hintr, hclosed⟩
      have hpos : 0 ≤ connfd := by omega
      exact ⟨hpos, hclosed hpos⟩

/-- A reserve that was in order is in order after the close exactly when there was none or it has
not been released. -/
lemma backupValid_close_iff {s : State} (hs : s.BackupValid) (released : Bool) :
    State.BackupValid { s with backupOpen := s.backupOpen && !released } ↔
      s.backupfd < 0 ∨ released = false := by
  simp only [State.BackupValid, Bool.and_eq_true, Bool.not_eq_true']
  constructor
  · rintro (⟨-, hkept⟩ | hneg)
    · exact .inr hkept
    · exact .inl hneg
  · rintro (hneg | hkept)
    · exact .inr hneg
    · exact hs.imp_left fun hopen => ⟨hopen, hkept⟩

/-- One call ends well and leaves the reserve in order exactly when its answers are harmless. -/
lemma accept_sound_iff {s : State} (hs : s.BackupValid) (k : Answers) :
    (accept s k).2.Sound ∧ (accept s k).1.BackupValid ↔ Harmless s k := by
  unfold accept Harmless
  by_cases hfull : k.accept = -ENFILE
  · have hfirst : k.accept ≠ -EINTR := by
      rw [hfull]
      decide
    have hmem : k.acceptAgain ∈ [k.accept, k.acceptAgain] :=
      List.mem_cons_of_mem _ (List.mem_singleton_self _)
    rw [if_pos hfull, and_iff_right hfirst, imp_iff_right hfull]
    by_cases hagain : 0 < k.acceptAgain
    · -- The connection is closed and the reserve opened again, or at least marked as missing.
      have hvalid : State.BackupValid
          { s with backupfd := k.openat, backupOpen := decide (0 ≤ k.openat) } := by
        by_cases hopen : 0 ≤ k.openat
        · exact .inl (decide_eq_true hopen)
        · exact .inr (Int.not_le.mp hopen)
      simp only [if_pos hagain, finish_sound_iff hmem]
      constructor
      · rintro ⟨⟨hintr, hclosed⟩, -⟩
        exact ⟨hintr, fun _ => hclosed (Int.le_of_lt hagain),
          fun hle => absurd hagain (Int.not_lt.mpr hle)⟩
      · rintro ⟨hintr, hclosed, -⟩
        exact ⟨⟨hintr, fun _ => hclosed hagain⟩, hvalid⟩
    · simp only [if_neg hagain, finish_sound_iff hmem, backupValid_close_iff hs]
      constructor
      · rintro ⟨⟨hintr, -⟩, hkept⟩
        exact ⟨hintr, fun hpos => absurd hpos hagain, fun _ => hkept⟩
      · rintro ⟨hintr, -, hkept⟩
        exact ⟨⟨hintr, fun _ => trivial⟩, hkept (Int.not_lt.mp hagain)⟩
  · have hmem : k.accept ∈ [k.accept] := List.mem_singleton_self _
    simp only [if_neg hfull, finish_sound_iff hmem]
    constructor
    · rintro ⟨⟨hintr, -⟩, -⟩
      exact ⟨hintr, fun hc => absurd hc hfull⟩
    · rintro ⟨hintr, -⟩
      exact ⟨⟨hintr, fun _ => trivial⟩, hs⟩

lemma outcomes_accept (s : State) (k : Answers) : (accept s k).1.outcomes = s.outcomes := by
  unfold accept
  by_cases hfull : k.accept = -ENFILE
  · by_cases hagain : k.acceptAgain > 0
    · simp only [if_pos hfull, if_pos hagain]
    · simp only [if_pos hfull, if_neg hagain]
  · rw [if_neg hfull]

lemma step_sound_iff {s s' : State} {k : Answers} (hs : Sound s)
    (h : machine.step s k = some s') : Sound s' ↔ Harmless s k := by
  obtain ⟨houtcomes, hvalid⟩ := hs
  simp only [machine, Option.some_inj] at h
  rw [← h, ← accept_sound_iff hvalid k, Sound, outcomes_accept]
  simp only [List.forall_mem_append, List.forall_mem_singleton]
  exact ⟨fun ⟨⟨_, hlast⟩, hv⟩ => ⟨hlast, hv⟩, fun ⟨hlast, hv⟩ => ⟨⟨houtcomes, hlast⟩, hv⟩⟩

/-- **When `accept` only returns what it may give away.**  Along any calls after the reserve has
been opened, every connection returned is on an open descriptor that the call has accepted, every
other call throws, and `backupfd_` is always open or negative, if and only if the answers to each
call are harmless. -/
theorem sound_iff (fd : ℕ) (ks : List Answers) :
    machine.Always Sound (start fd) ks ↔ machine.Each Harmless (start fd) ks :=
  machine.always_iff_each (fun _ _ _ _ _ => trivial) (fun _ _ _ _ _ hs => step_sound_iff hs) ks
    (start fd) trivial ⟨fun _ h => (nomatch h), .inl rfl⟩
    (machine.each_of_forall (fun _ _ => trivial) _ _)

/-- The system is out of descriptors, the reserve is given up and the second accept brings 7, which
is closed: the call returns a connection on it. -/
theorem closed_connection_returned :
    ¬ machine.Always Sound (start 5) [{ accept := -ENFILE, acceptAgain := 7, openat := 7 }] := by
  decide

end Coring.Acceptor
