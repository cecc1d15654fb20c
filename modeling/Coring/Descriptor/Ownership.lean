import Coring.Framework.Counting
import Coring.Descriptor.Basic

/-!
# Who closes a descriptor

For one number the program's state comes down to four figures: whether it is open, how many
live objects hold it, how many times it was closed since it was handed out, and how many of
these closes are still pending.  A `Ledger` holds them, and every operation of the program
moves the ledger of each number by one of a few entries: `Transfer` lists those that keep one
owner, `Duplicate` those after which the number has, or has had, a second one.

The property asked of a program is `ClosedOnce`: no number is closed twice, and none is closed
while a live object holds it.  `Sole`, one holder or one close and not both, is what the
operations that transfer ownership keep.  `Transfers` says which operations these are, in terms
of the operation and the object it is applied to.  A program of such operations is `ClosedOnce`
throughout; and a program that has destroyed all its objects was `ClosedOnce` throughout only
if all its operations were of this kind, because a number that has once had two owners is
closed by both of them.
-/

namespace Coring.Descriptor

/-! ## The ledger of one number -/

structure Ledger where
  opened : Bool
  holders : ℕ
  closes : ℕ
  pending : ℕ

namespace Ledger

variable {l l' : Ledger}

/-- Closed at most once, and held by nobody once it is. -/
def ClosedOnce (l : Ledger) : Prop := l.closes ≤ 1 ∧ (0 < l.closes → l.holders = 0)

/-- One holder, or one close, and not both. -/
def Sole (l : Ledger) : Prop := l.holders + l.closes ≤ 1

/-- What holds of a number as long as it is not closed twice. -/
structure Sound (l : Ledger) : Prop where
  held : 0 < l.holders → l.opened = true ∨ 0 < l.closes
  counted : l.pending ≤ l.closes
  open_pending : 0 < l.pending → l.opened = true

/-- The entries that keep one owner. -/
inductive Transfer : Ledger → Ledger → Prop
  | keep (l : Ledger) : Transfer l l
  /-- The number is handed out, to one object or (a constructor that throws) to none. -/
  | handOut {l : Ledger} (h : ℕ) (hopen : l.opened = false) (hh : h ≤ 1) :
      Transfer l ⟨true, l.holders + h, 0, l.pending⟩
  /-- A holder gives the number up and requests its close. -/
  | request {l : Ledger} (h : ℕ) (hh : l.holders = h + 1) :
      Transfer l ⟨l.opened, h, l.closes + 1, l.pending + 1⟩
  /-- A holder gives the number up and closes it. -/
  | closeNow {l : Ledger} (h : ℕ) (hh : l.holders = h + 1) :
      Transfer l ⟨false, h, l.closes + 1, l.pending⟩
  /-- A pending close is carried out. -/
  | execute {l : Ledger} (p : ℕ) (hp : l.pending = p + 1) :
      Transfer l ⟨false, l.holders, l.closes, p⟩

/-- The entries that make `h` holders and `c` requested closes, together more than one, out of
a number just handed out or out of one holder. -/
inductive Duplicate : Ledger → Ledger → Prop
  | handOut {l : Ledger} (h c : ℕ) (hopen : l.opened = false) (hhc : 2 ≤ h + c) :
      Duplicate l ⟨true, l.holders + h, c, l.pending + c⟩
  | share {l : Ledger} (h c n : ℕ) (hn : l.holders = n + 1) (hhc : 2 ≤ h + c) :
      Duplicate l ⟨l.opened, n + h, l.closes + c, l.pending + c⟩

lemma Sole.closedOnce (h : l.Sole) : l.ClosedOnce := by
  unfold Sole at h
  constructor <;> omega

/-- A number held and not closed is open. -/
lemma Sound.opened_of_held (hs : l.Sound) (h : l.ClosedOnce) (hpos : 0 < l.holders) :
    l.opened = true := by
  rcases hs.held hpos with ho | hc
  · exact ho
  · have := h.2 hc
    omega

lemma Sound.not_pending (hs : l.Sound) (hopen : l.opened = false) : l.pending = 0 := by
  rcases Nat.eq_zero_or_pos l.pending with h0 | hpos
  · exact h0
  · have ho := hs.open_pending hpos
    rw [hopen] at ho
    cases ho

lemma Sound.not_held (hs : l.Sound) (h : l.ClosedOnce) (hopen : l.opened = false) :
    l.holders = 0 := by
  rcases Nat.eq_zero_or_pos l.holders with h0 | hpos
  · exact h0
  · have ho := hs.opened_of_held h hpos
    rw [hopen] at ho
    cases ho

lemma Transfer.sound (h : Transfer l l') (hs : l.Sound) (hone : l.ClosedOnce) : l'.Sound := by
  have hcounted := hs.counted
  cases h with
  | keep => exact hs
  | handOut h hopen hh =>
    have hp := hs.not_pending hopen
    exact ⟨fun _ => Or.inl rfl, by simp only; omega, fun _ => rfl⟩
  | request h hh =>
    have ho := hs.opened_of_held hone (by omega)
    exact ⟨fun _ => Or.inl ho, by simp only; omega, fun _ => ho⟩
  | closeNow h hh =>
    -- a holder is left, so there is no close to be pending
    have hc : l.closes = 0 := by
      rcases Nat.eq_zero_or_pos l.closes with h0 | hpos
      · exact h0
      · have := hone.2 hpos
        omega
    refine ⟨fun _ => Or.inr (Nat.succ_pos _), by simp only; omega, fun hp => ?_⟩
    simp only at hp
    omega
  | execute p hp =>
    have hone := hone.1
    refine ⟨fun _ => Or.inr (by simp only; omega), by simp only; omega, fun hp' => ?_⟩
    simp only at hp'
    omega

lemma Duplicate.sound (h : Duplicate l l') (hs : l.Sound) (hone : l.ClosedOnce) : l'.Sound := by
  have hcounted := hs.counted
  cases h with
  | handOut h c hopen hhc =>
    have hp := hs.not_pending hopen
    exact ⟨fun _ => Or.inl rfl, by simp only; omega, fun _ => rfl⟩
  | share h c n hn hhc =>
    have ho := hs.opened_of_held hone (by omega)
    exact ⟨fun _ => Or.inl ho, by simp only; omega, fun _ => ho⟩

lemma Transfer.sole_iff (h : Transfer l l') (hs : l.Sound) (hone : l.ClosedOnce) :
    l'.Sole ↔ l.Sole := by
  unfold Sole
  cases h with
  | keep => exact Iff.rfl
  | handOut h hopen hh =>
    have hheld := hs.not_held hone hopen
    have hclosed := hone.1
    simp only
    omega
  | request h hh => simp only; omega
  | closeNow h hh => simp only; omega
  | execute p hp => exact Iff.rfl

lemma Duplicate.not_sole (h : Duplicate l l') : ¬ l'.Sole := by
  unfold Sole
  cases h with
  | handOut h c hopen hhc => simp only; omega
  | share h c n hn hhc => simp only; omega

end Ledger

/-! ## The operations on the ledgers -/

section Operations

variable {s s' : State} {d fd : ℤ} {i : ℕ} {o : Object}

/-- How many live objects hold `d`. -/
def State.holders (s : State) (d : ℤ) : ℕ := s.objects.countP fun o => o.fd = d

def State.ledger (s : State) (d : ℤ) : Ledger :=
  ⟨s.opened d, s.holders d, s.closes d, s.pending.count d⟩

lemma holders_remove (h : s.objects[i]? = some o) (d : ℤ) :
    (s.remove i).holders d + (if o.fd = d then 1 else 0) = s.holders d := by
  have hcount := countP_eraseIdx_add (p := fun o : Object => decide (o.fd = d)) h
  simpa only [State.holders, State.remove, decide_eq_true_eq] using hcount

lemma holders_makeInvalid (h : s.objects[i]? = some o) (hd : 0 ≤ d) :
    (s.makeInvalid i o).holders d + (if o.fd = d then 1 else 0) = s.holders d := by
  have hcount := countP_set_add (p := fun o : Object => decide (o.fd = d)) h { o with fd := -1 }
  have hd' : ¬ (-1 : ℤ) = d := by omega
  simpa only [State.holders, State.makeInvalid, decide_eq_true_eq, if_neg hd', Nat.add_zero]
    using hcount

@[simp] lemma ledger_construct_ne (k : Kind) (h : fd ≠ d) :
    (s.construct k fd).ledger d = s.ledger d := by
  simp [State.ledger, State.holders, State.construct, h]

@[simp] lemma ledger_construct_self (k : Kind) (d : ℤ) :
    (s.construct k d).ledger d = { s.ledger d with holders := (s.ledger d).holders + 1 } := by
  simp [State.ledger, State.holders, State.construct]

@[simp] lemma ledger_handOut_ne (h : fd ≠ d) : (s.handOut fd).ledger d = s.ledger d := by
  simp [State.ledger, State.holders, State.handOut, Function.update_of_ne h.symm]

@[simp] lemma ledger_handOut_self (d : ℤ) :
    (s.handOut d).ledger d = { s.ledger d with opened := true, closes := 0 } := by
  simp [State.ledger, State.holders, State.handOut]

@[simp] lemma ledger_requestClose_ne (h : fd ≠ d) :
    (s.requestClose fd).ledger d = s.ledger d := by
  simp [State.ledger, State.holders, State.requestClose, State.countClose,
    Function.update_of_ne h.symm, h]

@[simp] lemma ledger_requestClose_self (d : ℤ) :
    (s.requestClose d).ledger d =
      { s.ledger d with
        closes := (s.ledger d).closes + 1, pending := (s.ledger d).pending + 1 } := by
  simp [State.ledger, State.holders, State.requestClose, State.countClose]

@[simp] lemma ledger_closeNow_ne (h : fd ≠ d) : (s.closeNow fd).ledger d = s.ledger d := by
  simp [State.ledger, State.holders, State.closeNow, State.countClose, Function.update_of_ne h.symm]

@[simp] lemma ledger_closeNow_self (d : ℤ) :
    (s.closeNow d).ledger d =
      { s.ledger d with opened := false, closes := (s.ledger d).closes + 1 } := by
  simp [State.ledger, State.holders, State.closeNow, State.countClose]

@[simp] lemma ledger_destructor_ne (h : fd ≠ d) :
    (s.destructor fd).ledger d = s.ledger d := by
  unfold State.destructor
  split
  · rfl
  · exact ledger_requestClose_ne h

lemma destructor_of_nonneg (h : 0 ≤ fd) : s.destructor fd = s.requestClose fd :=
  if_neg (by omega)

@[simp] lemma ledger_initAddrOption_ne (a : AddrOption) (h : fd ≠ d) (found : Bool) :
    (s.initAddrOption a fd found).ledger d = s.ledger d := by
  cases found <;> simp [State.initAddrOption, h]

/-- `AddrOption{fd_}` leaves a second close behind, or a holder and a close. -/
lemma ledger_initAddrOption_self (a : AddrOption) (hd : 0 ≤ d) (found : Bool) :
    ∃ h c, h + c = 2 ∧ (s.initAddrOption a d found).ledger d =
      ⟨(s.ledger d).opened, (s.ledger d).holders + h, (s.ledger d).closes + c,
        (s.ledger d).pending + c⟩ := by
  cases found with
  | false =>
    refine ⟨0, 2, rfl, ?_⟩
    simp [State.initAddrOption, destructor_of_nonneg hd]
  | true =>
    refine ⟨1, 1, rfl, ?_⟩
    simp [State.initAddrOption, destructor_of_nonneg hd]

lemma ledger_makeInvalid_ne (h : s.objects[i]? = some o) (hd : 0 ≤ d) (hne : o.fd ≠ d) :
    (s.makeInvalid i o).ledger d = s.ledger d := by
  have hcount := holders_makeInvalid h hd
  rw [if_neg hne] at hcount
  simp only [State.ledger, ← hcount]
  rfl

lemma ledger_makeInvalid_self (h : s.objects[i]? = some o) (hd : 0 ≤ o.fd) :
    ∃ n, (s.ledger o.fd).holders = n + 1 ∧
      (s.makeInvalid i o).ledger o.fd = { s.ledger o.fd with holders := n } := by
  have hcount := holders_makeInvalid h hd
  rw [if_pos rfl] at hcount
  exact ⟨_, hcount.symm, rfl⟩

lemma ledger_remove_ne (h : s.objects[i]? = some o) (hne : o.fd ≠ d) :
    (s.remove i).ledger d = s.ledger d := by
  have hcount := holders_remove h d
  rw [if_neg hne] at hcount
  simp only [State.ledger, ← hcount]
  rfl

lemma ledger_remove_self (h : s.objects[i]? = some o) :
    ∃ n, (s.ledger o.fd).holders = n + 1 ∧
      (s.remove i).ledger o.fd = { s.ledger o.fd with holders := n } := by
  have hcount := holders_remove h o.fd
  rw [if_pos rfl] at hcount
  exact ⟨_, hcount.symm, rfl⟩

lemma withObject_eq_some {permitted : Object → Bool} {f : Object → State}
    (h : s.withObject i permitted f = some s') :
    ∃ o, s.objects[i]? = some o ∧ permitted o ∧ s' = f o := by
  unfold State.withObject at h
  split at h
  · rename_i o ho
    split at h
    · rename_i hp
      rw [Option.some_inj] at h
      exact ⟨o, ho, hp, h.symm⟩
    · cases h
  · cases h

end Operations

/-! ## The operations that transfer -/

/-- The object at `i`, if there is one, holds no valid number. -/
def State.invalidAt (s : State) (i : ℕ) : Bool := s.objects[i]?.all fun o => o.fd < 0

/-- The operations that leave a number with the owner it had: all but the construction of a
connection from a bare number, and those that make an object out of the number of another one
(or, for a connection from a socket, hand the number to a temporary besides) when that number
is valid. -/
def Transfers (s : State) : Action → Bool
  | .newConnection _ _ _ => false
  | .connectionFromSocket i _ _ => s.invalidAt i
  | .socketOfNumber i => s.invalidAt i
  | .convert i _ _ => s.invalidAt i
  | .view i => s.invalidAt i
  | _ => true

section Steps

variable {s s' : State} {a : Action} {d : ℤ} {i : ℕ} {o : Object}

lemma fd_neg_of_invalidAt (h : s.invalidAt i) (ho : s.objects[i]? = some o) : o.fd < 0 := by
  simpa [State.invalidAt, ho] using h

lemma fd_nonneg_of_not_invalidAt (h : ¬ s.invalidAt i) (ho : s.objects[i]? = some o) :
    0 ≤ o.fd := by
  simpa [State.invalidAt, ho] using h

lemma fresh_eq_true (h : s.fresh d = true) : 0 ≤ d ∧ s.opened d = false := by
  simpa [State.fresh] using h

/-- Moving a number to a new object changes no ledger. -/
lemma ledger_moved (ho : s.objects[i]? = some o) (k : Kind) (hd : 0 ≤ d) :
    ((s.makeInvalid i o).construct k o.fd).ledger d = s.ledger d := by
  by_cases hfd : o.fd = d
  · subst hfd
    obtain ⟨n, hn, heq⟩ := ledger_makeInvalid_self ho hd
    rw [ledger_construct_self, heq]
    simp only [← hn]
  · rw [ledger_construct_ne k hfd, ledger_makeInvalid_ne ho hd hfd]

/-- A number handed out to one object, or to none. -/
lemma transfer_handOut {x : ℤ} (hx : s.fresh x = true) (k : Kind) (bound : Bool) (d : ℤ) :
    Ledger.Transfer (s.ledger d)
      ((if bound then (s.handOut x).construct k x else s.handOut x).ledger d) := by
  obtain ⟨-, hopen⟩ := fresh_eq_true hx
  by_cases hd : x = d
  · subst hd
    cases bound with
    | false =>
      rw [if_neg Bool.false_ne_true, ledger_handOut_self]
      exact Ledger.Transfer.handOut 0 hopen (Nat.zero_le 1)
    | true =>
      rw [if_pos rfl, ledger_construct_self, ledger_handOut_self]
      exact Ledger.Transfer.handOut 1 hopen (Nat.le_refl 1)
  · have hkeep : (if bound then (s.handOut x).construct k x else s.handOut x).ledger d =
        s.ledger d := by
      cases bound <;> simp [hd]
    rw [hkeep]
    exact Ledger.Transfer.keep _

lemma transfer_close (ho : s.objects[i]? = some o) (hd : 0 ≤ d) :
    Ledger.Transfer (s.ledger d) (((s.requestClose o.fd).makeInvalid i o).ledger d) := by
  have ho' : (s.requestClose o.fd).objects[i]? = some o := ho
  by_cases hfd : o.fd = d
  · subst hfd
    obtain ⟨n, hn, heq⟩ := ledger_makeInvalid_self ho' hd
    rw [ledger_requestClose_self] at hn heq
    rw [heq]
    exact Ledger.Transfer.request n hn
  · rw [ledger_makeInvalid_ne ho' hd hfd, ledger_requestClose_ne hfd]
    exact Ledger.Transfer.keep _

lemma transfer_destructor (ho : s.objects[i]? = some o) (hd : 0 ≤ d) :
    Ledger.Transfer (s.ledger d) (((s.destructor o.fd).remove i).ledger d) := by
  have ho' : (s.destructor o.fd).objects[i]? = some o := by
    unfold State.destructor
    split <;> exact ho
  by_cases hfd : o.fd = d
  · subst hfd
    obtain ⟨n, hn, heq⟩ := ledger_remove_self ho'
    rw [destructor_of_nonneg hd] at hn heq ⊢
    rw [ledger_requestClose_self] at hn heq
    rw [heq]
    exact Ledger.Transfer.request n hn
  · rw [ledger_remove_ne ho' hfd, ledger_destructor_ne hfd]
    exact Ledger.Transfer.keep _

lemma transfer_closeNow (ho : s.objects[i]? = some o) (d : ℤ) :
    Ledger.Transfer (s.ledger d) (((s.closeNow o.fd).remove i).ledger d) := by
  have ho' : (s.closeNow o.fd).objects[i]? = some o := ho
  by_cases hfd : o.fd = d
  · subst hfd
    obtain ⟨n, hn, heq⟩ := ledger_remove_self ho'
    rw [ledger_closeNow_self] at hn heq
    rw [heq]
    exact Ledger.Transfer.closeNow n hn
  · rw [ledger_remove_ne ho' hfd, ledger_closeNow_ne hfd]
    exact Ledger.Transfer.keep _

lemma transfer_execute {j : ℕ} {fd : ℤ} (hj : s.pending[j]? = some fd) (d : ℤ) :
    Ledger.Transfer (s.ledger d) (State.ledger { s with
      pending := s.pending.eraseIdx j, opened := Function.update s.opened fd false } d) := by
  have hcount := countP_eraseIdx_add (p := fun x => x == d) hj
  by_cases hfd : fd = d
  · subst hfd
    rw [if_pos (beq_self_eq_true fd)] at hcount
    simp only [State.ledger, Function.update_self]
    exact Ledger.Transfer.execute _ hcount.symm
  · have hne : ¬ (fd == d) = true := by simpa using hfd
    rw [if_neg hne] at hcount
    have hpending : (s.pending.eraseIdx j).count d = s.pending.count d := hcount
    simp only [State.ledger, State.holders, hpending, Function.update_of_ne (Ne.symm hfd)]
    exact Ledger.Transfer.keep _

/-- An operation that transfers enters a `Transfer` into every ledger. -/
theorem step_transfer (h : step s a = some s') (ht : Transfers s a) (hd : 0 ≤ d) :
    Ledger.Transfer (s.ledger d) (s'.ledger d) := by
  cases a with
  | newFileDescriptor x =>
    obtain ⟨hx, hs'⟩ := Option.ite_none_right_eq_some.mp h
    cases hs'
    exact transfer_handOut hx .fileDescriptor true d
  | newSocket x =>
    obtain ⟨hx, hs'⟩ := Option.ite_none_right_eq_some.mp h
    cases hs'
    exact transfer_handOut hx .socket true d
  | newConnection addr x found => exact absurd ht Bool.false_ne_true
  | newAcceptor x bound =>
    obtain ⟨hx, hs'⟩ := Option.ite_none_right_eq_some.mp h
    cases hs'
    exact transfer_handOut hx .acceptor bound d
  | connectionFromSocket i addr found =>
    obtain ⟨o, ho, -, rfl⟩ := withObject_eq_some h
    have hneg := fd_neg_of_invalidAt ht ho
    rw [ledger_initAddrOption_ne addr (by omega), ledger_makeInvalid_ne ho hd (by omega)]
    exact Ledger.Transfer.keep _
  | connectionWithEndpoints i addr both =>
    obtain ⟨o, ho, -, rfl⟩ := withObject_eq_some h
    rw [ledger_moved ho _ hd]
    exact Ledger.Transfer.keep _
  | move i k =>
    obtain ⟨o, ho, -, rfl⟩ := withObject_eq_some h
    rw [ledger_moved ho _ hd]
    exact Ledger.Transfer.keep _
  | socketOfNumber i =>
    obtain ⟨o, ho, -, rfl⟩ := withObject_eq_some h
    have hneg := fd_neg_of_invalidAt ht ho
    rw [ledger_construct_ne _ (by omega)]
    exact Ledger.Transfer.keep _
  | convert i addr found =>
    obtain ⟨o, ho, -, rfl⟩ := withObject_eq_some h
    have hneg := fd_neg_of_invalidAt ht ho
    rw [ledger_initAddrOption_ne addr (by omega)]
    exact Ledger.Transfer.keep _
  | view i =>
    obtain ⟨o, ho, -, rfl⟩ := withObject_eq_some h
    have hneg := fd_neg_of_invalidAt ht ho
    rw [ledger_construct_ne _ (by omega)]
    exact Ledger.Transfer.keep _
  | close i =>
    obtain ⟨o, ho, -, rfl⟩ := withObject_eq_some h
    exact transfer_close ho hd
  | destroy i =>
    obtain ⟨o, ho, -, rfl⟩ := withObject_eq_some h
    split
    · exact transfer_closeNow ho d
    · exact transfer_destructor ho hd
  | execute j =>
    simp only [step] at h
    split at h
    · rename_i fd hj
      rw [Option.some_inj] at h
      rw [← h]
      exact transfer_execute hj d
    · cases h

/-- A live object counts as a holder of its number. -/
lemma holders_pos (ho : s.objects[i]? = some o) : ∃ n, (s.ledger o.fd).holders = n + 1 := by
  obtain ⟨n, hn, -⟩ := ledger_remove_self ho
  exact ⟨n, hn⟩

/-- A second object made out of the number of the object at `i`. -/
lemma duplicate_construct (ho : s.objects[i]? = some o) (k : Kind) :
    Ledger.Duplicate (s.ledger o.fd) ((s.construct k o.fd).ledger o.fd) := by
  obtain ⟨n, hn⟩ := holders_pos ho
  rw [ledger_construct_self, hn]
  exact Ledger.Duplicate.share 2 0 n hn (Nat.le_refl 2)

/-- Any other operation enters a `Duplicate` into one ledger and leaves the others alone. -/
theorem step_duplicate (h : step s a = some s') (ht : ¬ Transfers s a) :
    ∃ f, 0 ≤ f ∧ Ledger.Duplicate (s.ledger f) (s'.ledger f) ∧
      ∀ d, 0 ≤ d → f ≠ d → s'.ledger d = s.ledger d := by
  cases a with
  | newConnection addr x found =>
    obtain ⟨⟨hx, -⟩, hs'⟩ := Option.ite_none_right_eq_some.mp h
    cases hs'
    obtain ⟨hpos, hopen⟩ := fresh_eq_true hx
    obtain ⟨n, c, hnc, heq⟩ := ledger_initAddrOption_self addr hpos found
    refine ⟨x, hpos, ?_, fun d _ hne => ?_⟩
    · rw [heq, ledger_handOut_self, Nat.zero_add]
      exact Ledger.Duplicate.handOut n c hopen (Nat.le_of_eq hnc.symm)
    · rw [ledger_initAddrOption_ne addr hne, ledger_handOut_ne hne]
  | connectionFromSocket i addr found =>
    obtain ⟨o, ho, -, rfl⟩ := withObject_eq_some h
    have hpos := fd_nonneg_of_not_invalidAt ht ho
    obtain ⟨n, hn, hinv⟩ := ledger_makeInvalid_self ho hpos
    obtain ⟨m, c, hmc, heq⟩ := ledger_initAddrOption_self addr hpos found
    refine ⟨o.fd, hpos, ?_, fun d hd hne => ?_⟩
    · rw [heq, hinv]
      exact Ledger.Duplicate.share m c n hn (Nat.le_of_eq hmc.symm)
    · rw [ledger_initAddrOption_ne addr hne, ledger_makeInvalid_ne ho hd hne]
  | socketOfNumber i =>
    obtain ⟨o, ho, -, rfl⟩ := withObject_eq_some h
    exact ⟨o.fd, fd_nonneg_of_not_invalidAt ht ho, duplicate_construct ho _,
      fun d _ hne => ledger_construct_ne _ hne⟩
  | convert i addr found =>
    obtain ⟨o, ho, -, rfl⟩ := withObject_eq_some h
    have hpos := fd_nonneg_of_not_invalidAt ht ho
    obtain ⟨n, hn⟩ := holders_pos ho
    obtain ⟨m, c, hmc, heq⟩ := ledger_initAddrOption_self addr hpos found
    refine ⟨o.fd, hpos, ?_, fun d _ hne => ledger_initAddrOption_ne addr hne found⟩
    have hshare : (s.ledger o.fd).holders + m = n + (m + 1) := by omega
    rw [heq, hshare]
    exact Ledger.Duplicate.share (m + 1) c n hn (by omega)
  | view i =>
    obtain ⟨o, ho, -, rfl⟩ := withObject_eq_some h
    exact ⟨o.fd, fd_nonneg_of_not_invalidAt ht ho, duplicate_construct ho _,
      fun d _ hne => ledger_construct_ne _ hne⟩
  | _ => exact absurd rfl ht

end Steps

/-! ## Whole programs -/

namespace State

def Sound (s : State) : Prop := ∀ d, 0 ≤ d → (s.ledger d).Sound

/-- Every number has one holder at most, and none once it is closed. -/
def Sole (s : State) : Prop := ∀ d, 0 ≤ d → (s.ledger d).Sole

/-- No number is closed twice since it was handed out, or closed with a live holder. -/
def ClosedOnce (s : State) : Prop := ∀ d, 0 ≤ d → (s.ledger d).ClosedOnce

lemma Sole.closedOnce {s : State} (h : s.Sole) : s.ClosedOnce := fun d hd => (h d hd).closedOnce

end State

section Runs

variable {s s' t : State} {a : Action} {as : List Action}

lemma step_sound (hs : s.Sound) (hone : s.ClosedOnce) (h : step s a = some s') : s'.Sound := by
  intro d hd
  by_cases ht : Transfers s a
  · exact (step_transfer h ht hd).sound (hs d hd) (hone d hd)
  · obtain ⟨f, hf, hdup, hkeep⟩ := step_duplicate h ht
    by_cases hfd : f = d
    · exact hfd ▸ hdup.sound (hs f hf) (hone f hf)
    · exact (hkeep d hd hfd).symm ▸ hs d hd

lemma step_sole_iff (hs : s.Sound) (hsole : s.Sole) (h : step s a = some s') :
    s'.Sole ↔ Transfers s a := by
  constructor
  · intro hsole'
    by_contra ht
    obtain ⟨f, hf, hdup, -⟩ := step_duplicate h ht
    exact hdup.not_sole (hsole' f hf)
  · intro ht d hd
    have hone := hsole.closedOnce d hd
    exact ((step_transfer h ht hd).sole_iff (hs d hd) hone).mpr (hsole d hd)

/-- A second owner does not go away, as long as no number is closed twice. -/
lemma sole_of_step (hs : s.Sound) (hone : s.ClosedOnce) (h : step s a = some s')
    (hsole' : s'.Sole) : s.Sole := by
  intro d hd
  by_cases ht : Transfers s a
  · exact ((step_transfer h ht hd).sole_iff (hs d hd) (hone d hd)).mp (hsole' d hd)
  · obtain ⟨f, hf, hdup, -⟩ := step_duplicate h ht
    exact absurd (hsole' f hf) hdup.not_sole

lemma sole_of_finished (hone : s.ClosedOnce) (hobj : s.objects = []) : s.Sole := by
  intro d hd
  have hclosed := (hone d hd).1
  have hheld : (s.ledger d).holders = 0 := by
    simp only [State.ledger, State.holders, hobj, List.countP_nil]
  unfold Ledger.Sole
  omega

lemma always_sole_of_finished (hs : s.Sound) (hone : machine.Always State.ClosedOnce s as)
    (hrun : machine.run s as = some t) (hobj : t.objects = []) :
    machine.Always State.Sole s as := by
  -- the last state has one owner a number, and each state before it inherits that
  induction as generalizing s with
  | nil =>
    rw [Machine.run_nil, Option.some_inj] at hrun
    exact sole_of_finished hone (hrun ▸ hobj)
  | cons a as ih =>
    obtain ⟨s₁, hstep, hrun⟩ := machine.run_cons_eq_some.mp hrun
    rw [machine.always_cons_some hstep] at hone ⊢
    have htail := ih (step_sound hs hone.1 hstep) hone.2 hrun
    exact ⟨sole_of_step hs hone.1 hstep htail.head, htail⟩

lemma sound_init : State.Sound {} := fun _ _ =>
  ⟨fun h => absurd h (Nat.lt_irrefl 0), Nat.le_refl 0, fun h => absurd h (Nat.lt_irrefl 0)⟩

lemma sole_init : State.Sole {} := fun _ _ => Nat.zero_le 1

/-- Along a program the numbers have one owner exactly when every operation transfers. -/
theorem always_sole_iff_transfers (as : List Action) :
    machine.Always State.Sole {} as ↔ machine.Each (fun s a => Transfers s a) {} as := by
  have hkept : ∀ s a s', (s.Sound ∧ s.Sole) → True → Transfers s a →
      machine.step s a = some s' → s'.Sound ∧ s'.Sole := fun s a s' hs _ ht hstep =>
    ⟨step_sound hs.1 hs.2.closedOnce hstep, (step_sole_iff hs.1 hs.2 hstep).mpr ht⟩
  exact machine.always_iff_each_of_kept hkept
    (fun s a s' hs _ hstep => step_sole_iff hs.1 hs.2 hstep) as {} ⟨sound_init, sole_init⟩
    sole_init (machine.each_of_forall (fun _ _ => trivial) _ _)

end Runs

/-- A program whose operations all transfer closes no number twice and none that is held; and
of the programs that destroy their objects it is only these that do so. -/
theorem closedOnce_of_transfers (as : List Action) :
    (machine.Each (fun s a => Transfers s a) {} as → machine.Always State.ClosedOnce {} as) ∧
      ∀ s, machine.run {} as = some s → s.objects = [] →
        machine.Always State.ClosedOnce {} as →
          machine.Each (fun s a => Transfers s a) {} as := by
  constructor
  · intro h
    have hsole := (always_sole_iff_transfers as).mpr h
    exact machine.always_mono (fun s => State.Sole.closedOnce) hsole
  · intro s hrun hobj hone
    exact (always_sole_iff_transfers as).mp (always_sole_of_finished sound_init hone hrun hobj)

/-- A connection is accepted and moved, and everything is destroyed. -/
def acceptAndMove : List Action :=
  [.newAcceptor 3 true, .newSocket 4, .connectionWithEndpoints 1 .peerEndpoint false, .destroy 1,
    .move 1 (.connection .peerEndpoint), .destroy 1, .destroy 1, .execute 0, .destroy 0]

theorem closedOnce_of_transfers_acceptAndMove :
    machine.Always State.ClosedOnce {} acceptAndMove ∧
    ∃ s, machine.run {} acceptAndMove = some s ∧ s.objects = [] ∧ s.closes 3 = 1 ∧
      s.closes 4 = 1 :=
  ⟨(closedOnce_of_transfers acceptAndMove).1 (by decide), _, rfl, rfl, rfl, rfl⟩

/-- `connection c{3}` and the end of its scope: the temporary has closed the number before. -/
theorem closedOnce_fails_on_one_connection :
    ¬ ∀ as, machine.Always State.ClosedOnce {} as := by
  intro h
  have hrun : (machine.run {} [.newConnection .empty 3 true, .destroy 0]).map
      (fun s => s.closes 3) = some 2 := rfl
  obtain ⟨s, hs, hcloses⟩ := Option.map_eq_some_iff.mp hrun
  have hone := machine.always_run (h _) hs 3 (by decide)
  have htwo : (s.ledger 3).closes = 2 := hcloses
  have hle := hone.1
  omega

end Coring.Descriptor
