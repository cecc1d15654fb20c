import Coring.Buffer.Words
import Coring.Framework.Machine
import Mathlib.Data.Nat.Find
import Mathlib.Order.Monotone.Basic

/-!
# The socket writers

`include/coring/socket_writer.hpp` offers three coroutines that send a buffer over a connection:
`write_some` makes one send of what is readable, `write_certain` repeats it for a number of bytes,
and `write_all` until the buffer is empty.  Each comes in two overloads with the same body; they
differ only in whether the `send_some` they await carries a duration.  A call is a machine whose
actions are the values the awaited sends return, so the two overloads are one machine here, and a
send that was cancelled is one that returns the negative error code of the cancellation.

Every send is offered all that is readable.  That suits `write_all`, which sends its buffer exactly
once and in order, and knows at every failure what is left (`writeAll_exact`).  `write_certain`
is offered as much, although it counts down from `nbytes`; it does what it is asked for exactly when
the sends happen to stop at that number (`writesCertain_iff`).

The checks of all three let `-EINTR` through to `has_read`, as if it were a count.  With its
assertion compiled in that is the end of the program; without it the read index goes back by four
bytes. An interrupted send is never without effect (`interrupted_not_kept`).
-/

namespace Coring

/-- `EINTR`. -/
def eIntr : ℤ := 4

/-- Where a call of a writer stands. -/
inductive WriteStatus
  /-- It awaits a send. -/
  | sending
  | returned
  /-- With one of the two exceptions a reader throws as well. -/
  | threw (e : ReadError)
  /-- The assertion in `has_read` has failed. -/
  | aborted
  deriving Repr, DecidableEq

/-- A call of a writer in progress. -/
structure Writing where
  buffer : WordBuffer
  /-- The local variable `total`, where the writer has one. -/
  total : ℤ
  /-- The bytes the socket has accepted, in order. -/
  sent : List UInt8
  status : WriteStatus

/-! ## The writers -/

section Writers

variable (ndebug : Bool) (w : Writing) (n : ℤ)

/-- The socket has accepted `n` of the bytes it was offered; a result that is not positive is no
count. -/
def Writing.accept : Writing :=
  { w with sent := w.sent ++ w.buffer.readableView.take n.toNat }

/-- `buffer->has_read(n)` with the `int` converted to a `size_t`, and what the call is then: `next`
is the value `total` gets, and at zero the call returns. -/
def Writing.hasRead (next : WordBuffer → ℤ) : Writing :=
  match w.buffer.hasRead ndebug (BitVec.ofInt 64 n) with
  | none => { w with status := .aborted }
  | some b =>
      { w with
        buffer := b
        total := next b
        status := if next b = 0 then .returned else .sending }

/-- `write_some`, from its send on.  It has no `total` and makes one send. -/
def writeSome : Writing :=
  let w := w.accept n
  if n < 0 ∧ n ≠ -eIntr then { w with status := .threw (.systemError (-n)) }
  else w.hasRead ndebug n fun _ => 0

/-- The body of the loops of `write_certain` and `write_all`, from its send on. -/
def writeTurn (next : WordBuffer → ℤ) : Writing :=
  let w := w.accept n
  if n = 0 then { w with status := .threw .eofError }
  else if n < 0 ∧ n ≠ -eIntr then { w with status := .threw (.systemError (-n)) }
  else w.hasRead ndebug n next

/-- `write_certain`: `total -= n`, in an `int`. -/
def writeCertain : Writing := writeTurn ndebug w n fun _ => (w.total - n).bmod (2 ^ 32)

/-- `write_all`: `total = buffer->readable()`. -/
def writeAll : Writing := writeTurn ndebug w n fun b => b.readable.toNat

end Writers

/-- The three functions with their arguments. -/
inductive Writer
  | writeSome
  | writeCertain (nbytes : BitVec 32)
  | writeAll
  deriving DecidableEq

namespace Writer

/-- The call at its first send, or at its end if it makes none. -/
def start (b : WordBuffer) : Writer → Writing
  | .writeSome => ⟨b, 0, [], .sending⟩
  | .writeCertain nbytes =>
      ⟨b, nbytes.toInt, [], if nbytes.toInt = 0 then .returned else .sending⟩
  | .writeAll =>
      ⟨b, b.readable.toNat, [], if (b.readable.toNat : ℤ) = 0 then .returned else .sending⟩

/-- The call goes on with the result of its send. -/
def resume (ndebug : Bool) (w : Writing) (n : ℤ) : Writer → Writing
  | .writeSome => Coring.writeSome ndebug w n
  | .writeCertain _ => Coring.writeCertain ndebug w n
  | .writeAll => Coring.writeAll ndebug w n

def machine (ndebug : Bool) (f : Writer) : Machine Writing ℤ :=
  ⟨fun w n => if w.status = .sending then some (f.resume ndebug w n) else none⟩

variable {ndebug : Bool} {f : Writer} {w w' : Writing} {n : ℤ}

lemma step_eq_some : (f.machine ndebug).step w n = some w' ↔
    w.status = .sending ∧ f.resume ndebug w n = w' := by
  simp only [machine]
  split
  · next h => simp [h]
  · next h => simp [h]

end Writer

/-! ## One send -/

section Send

variable {ndebug : Bool} {w : Writing} {n : ℤ}

/-- A count is converted without loss. -/
lemma toNat_ofInt_of_le {b : WordBuffer} (h₀ : 0 ≤ n) (h : n ≤ b.readable.toNat) :
    (BitVec.ofInt 64 n).toNat = n.toNat := by
  have hlt := b.readable.isLt
  rw [BitVec.toNat_ofInt, Int.emod_eq_of_lt h₀ (by push_cast; omega)]

/-- **A send that accepts bytes.**  They are appended to what was sent and leave the buffer. -/
lemma writeTurn_of_pos (ndebug : Bool) (next : WordBuffer → ℤ) (h₀ : 0 < n)
    (h : n ≤ w.buffer.readable.toNat) :
    ∃ b, writeTurn ndebug w n next = ⟨b, next b, w.sent ++ w.buffer.readableView.take n.toNat,
        if next b = 0 then .returned else .sending⟩ ∧
      b.readableView = w.buffer.readableView.drop n.toNat ∧
      (n = w.buffer.readable.toNat → b = w.buffer.clear) := by
  have htoNat := toNat_ofInt_of_le h₀.le h
  have hle : BitVec.ofInt 64 n ≤ w.buffer.readable := by
    rw [BitVec.le_def, htoNat]
    omega
  obtain ⟨b, hb, hview, hclear⟩ := WordBuffer.hasRead_of_le ndebug hle
  refine ⟨b, ?_, by rw [hview, htoNat], fun heq => hclear ?_⟩
  · rw [writeTurn, if_neg h₀.ne', if_neg (fun hc => absurd hc.1 h₀.not_gt)]
    simp only [Writing.hasRead, Writing.accept, hb]
  · rw [← BitVec.toNat_inj, htoNat]
    omega

variable {next : WordBuffer → ℤ}

lemma accept_of_nonpos (h : n ≤ 0) : w.accept n = w := by
  simp only [Writing.accept, Int.toNat_of_nonpos h, List.take_zero, List.append_nil]

lemma writeTurn_of_zero : writeTurn ndebug w 0 next = { w with status := .threw .eofError } := by
  rw [writeTurn, if_pos rfl, accept_of_nonpos le_rfl]

lemma writeTurn_of_neg (h : n < 0) (hne : n ≠ -eIntr) :
    writeTurn ndebug w n next = { w with status := .threw (.systemError (-n)) } := by
  rw [writeTurn, if_neg h.ne, if_pos ⟨h, hne⟩, accept_of_nonpos h.le]

end Send

/-! ## `write_all` -/

/-- The results of a send other than an interruption: a count of at most the bytes it was offered,
`0`, or a negative error. -/
def Permitted (w : Writing) (n : ℤ) : Prop := n ≤ w.buffer.readable.toNat ∧ n ≠ -eIntr

instance (w : Writing) (n : ℤ) : Decidable (Permitted w n) := inferInstanceAs (Decidable (_ ∧ _))

/-- A call of `write_all` on the content `c` after the sends `ns`. -/
structure SendsAll (c : List UInt8) (ns : List ℤ) (w : Writing) : Prop where
  /-- Nothing is lost and nothing is sent twice. -/
  conserved : w.sent ++ w.buffer.readableView = c
  returned : w.status = .returned ↔ w.sent = c
  emptied : w.status = .returned → w.buffer.readableView = [] ∧
    (c ≠ [] → w.buffer.indexRead = 0 ∧ w.buffer.indexWrite = 0)
  eof : w.status = .threw .eofError ↔ ns.getLast? = some 0
  error : ∀ code, w.status = .threw (.systemError code) ↔ 0 < code ∧ ns.getLast? = some (-code)
  /-- What an exception leaves to be sent. -/
  unsent : ∀ e, w.status = .threw e → w.buffer.readableView = c.drop w.sent.length
  survives : w.status ≠ .aborted
  /-- While a send is awaited there is something to send, and every send so far has accepted
  something, so there is an end to them. -/
  sending : w.status = .sending → w.buffer.readableView ≠ [] ∧ ns.length ≤ w.sent.length

namespace SendsAll

variable {ndebug : Bool} {b : WordBuffer} {c : List UInt8} {ns : List ℤ} {w : Writing} {n : ℤ}

lemma start (b : WordBuffer) : SendsAll b.readableView [] (Writer.writeAll.start b) := by
  have hlen := b.length_readableView
  have hnil : b.readable.toNat = 0 ↔ b.readableView = [] := by
    rw [← hlen, List.length_eq_zero_iff]
  simp only [Writer.start]
  by_cases hzero : b.readable.toNat = 0
  · have hview := hnil.mp hzero
    constructor <;> simp [hzero, hview]
  · have hview := mt hnil.mpr hzero
    have hne : ¬ ([] = b.readableView) := fun heq => hview heq.symm
    constructor <;> simp [hzero, hview, hne]

/-- A send that accepts something. -/
lemma accepts (h : SendsAll c ns w) (hw : w.status = .sending) (hpos : 0 < n)
    (hle : n ≤ w.buffer.readable.toNat) : SendsAll c (ns ++ [n]) (writeAll ndebug w n) := by
  obtain ⟨b, hturn, hview, hclear⟩ := writeTurn_of_pos ndebug (fun b => (b.readable.toNat : ℤ))
    hpos hle
  have hlen := w.buffer.length_readableView
  have hconserved : w.sent ++ w.buffer.readableView.take n.toNat ++ b.readableView = c := by
    rw [hview, List.append_assoc, List.take_append_drop, h.conserved]
  have hzero : (b.readable.toNat : ℤ) = 0 ↔ b.readableView = [] := by
    rw [← b.length_readableView, Int.natCast_eq_zero, List.length_eq_zero_iff]
  -- Nothing is left exactly when the send has accepted all it was offered.
  have hlast : b.readableView = [] → b = w.buffer.clear := by
    intro hnil
    rw [hview, List.drop_eq_nil_iff, hlen] at hnil
    exact hclear (by omega)
  have hdone : b.readableView = [] ↔ w.sent ++ w.buffer.readableView.take n.toNat = c := by
    rw [← hconserved, List.self_eq_append_right]
  rw [writeAll, hturn]
  constructor
  case conserved => exact hconserved
  case returned =>
    simp only [hzero]
    rw [← hdone]
    by_cases hnil : b.readableView = []
    · simp [hnil]
    · simp [hnil]
  case emptied =>
    simp only [hzero]
    intro hret
    have hnil : b.readableView = [] := by
      by_contra hne
      simp [hne] at hret
    refine ⟨hnil, fun _ => ?_⟩
    rw [hlast hnil]
    exact ⟨rfl, rfl⟩
  case eof =>
    simp only [List.getLast?_concat, Option.some_inj, hpos.ne', iff_false]
    split <;> simp
  case error =>
    intro code
    simp only [List.getLast?_concat, Option.some_inj]
    constructor
    · intro hc
      split at hc <;> cases hc
    · rintro ⟨hcode, rfl⟩
      omega
  case unsent =>
    intro e hc
    dsimp only at hc
    split at hc <;> cases hc
  case survives =>
    dsimp only
    split <;> simp
  case sending =>
    simp only [hzero]
    intro hsend
    have hne : b.readableView ≠ [] := fun hnil => by simp [hnil] at hsend
    refine ⟨hne, ?_⟩
    have hbefore := (h.sending hw).2
    simp only [List.length_append, List.length_take, List.length_singleton, hlen]
    omega

/-- A send that ends the call with an exception. -/
lemma throws (h : SendsAll c ns w) (hw : w.status = .sending) (hn : n ≤ 0) {e : ReadError}
    (he : e = .eofError ∧ n = 0 ∨ e = .systemError (-n) ∧ n < 0) :
    SendsAll c (ns ++ [n]) { w with status := .threw e } := by
  have hview := (h.sending hw).1
  have hunsent : w.sent ≠ c := by
    rw [← h.conserved]
    exact fun heq => hview (List.self_eq_append_right.mp heq)
  constructor
  case conserved => exact h.conserved
  case returned => simp [hunsent]
  case emptied => simp
  case eof =>
    rcases he with ⟨rfl, rfl⟩ | ⟨rfl, hneg⟩
    · simp
    · simp [hneg.ne]
  case error =>
    intro code
    rcases he with ⟨rfl, rfl⟩ | ⟨rfl, hneg⟩
    · simp only [List.getLast?_concat, Option.some_inj, WriteStatus.threw.injEq, reduceCtorEq,
        false_iff]
      omega
    · simp only [List.getLast?_concat, Option.some_inj, WriteStatus.threw.injEq,
        ReadError.systemError.injEq]
      omega
  case unsent =>
    intro _ _
    rw [← h.conserved, List.drop_left]
  case survives => simp
  case sending => simp

lemma resume (h : SendsAll c ns w) (hw : w.status = .sending) (hn : Permitted w n) :
    SendsAll c (ns ++ [n]) (writeAll ndebug w n) := by
  obtain ⟨hle, hintr⟩ := hn
  rcases lt_trichotomy n 0 with hneg | rfl | hpos
  · rw [writeAll, writeTurn_of_neg hneg hintr]
    exact h.throws hw hneg.le (.inr ⟨rfl, hneg⟩)
  · rw [writeAll, writeTurn_of_zero]
    exact h.throws hw le_rfl (.inl ⟨rfl, rfl⟩)
  · exact h.accepts hw hpos hle

end SendsAll

/-- **`write_all` sends the whole content once and in order, and is exact on failure.**  However the
sends go, at every point of the call what was sent and what is readable make up the content; the
call has returned when all of it was sent, and not before. -/
theorem writeAll_exact (ndebug : Bool) (b : WordBuffer) (ns : List ℤ) (w : Writing)
    (hns : (Writer.writeAll.machine ndebug).Each Permitted (Writer.writeAll.start b) ns)
    (hrun : (Writer.writeAll.machine ndebug).run (Writer.writeAll.start b) ns = some w) :
    SendsAll b.readableView ns w := by
  refine (Writer.writeAll.machine ndebug).run_history (P := SendsAll b.readableView) ?_
    (SendsAll.start b) hns hrun
  intro ns w n w' h hn hstep
  obtain ⟨hw, rfl⟩ := Writer.step_eq_some.mp hstep
  exact h.resume hw hn

/-- Eight bytes of which the first three have been read. -/
def fiveLeft : WordBuffer := ⟨fun i => UInt8.ofNat i.toNat, 3, 8⟩

/-- A short write, and then the end of the connection. -/
theorem writeAll_exact_short_write :
    ∃ w, (Writer.writeAll.machine false).run (Writer.writeAll.start fiveLeft) [2, 0] = some w ∧
      SendsAll [3, 4, 5, 6, 7] [2, 0] w ∧ w.buffer.readableView = [5, 6, 7] :=
  ⟨_, rfl, writeAll_exact false fiveLeft [2, 0] _ (by decide) rfl, by decide⟩

/-! ## `write_certain` -/

/-- The results of the first `k` sends. -/
def results (ns : ℕ → ℕ) : ℕ → List ℤ
  | 0 => []
  | k + 1 => results ns k ++ [(ns k : ℤ)]

/-- How many bytes the first `k` sends accept. -/
def acceptedBy (ns : ℕ → ℕ) : ℕ → ℕ
  | 0 => 0
  | k + 1 => acceptedBy ns k + ns k

/-- Each send of the call accepts between one and all of the bytes it is offered, and none if it is
offered none. -/
def Accepting (ndebug : Bool) (b : WordBuffer) (nbytes : BitVec 32) (ns : ℕ → ℕ) : Prop :=
  let f := Writer.writeCertain nbytes
  ∀ k w, (f.machine ndebug).run (f.start b) (results ns k) = some w → w.status = .sending →
    ns k ≤ w.buffer.readable.toNat ∧ (0 < w.buffer.readable.toNat → 0 < ns k)

/-- What `write_certain` is for: it returns, when the socket has accepted the first `nbytes`
readable bytes and the buffer shows the others. -/
def WritesCertain (ndebug : Bool) (b : WordBuffer) (nbytes : BitVec 32) (ns : ℕ → ℕ) : Prop :=
  let f := Writer.writeCertain nbytes
  ∃ k w, (f.machine ndebug).run (f.start b) (results ns k) = some w ∧ w.status = .returned ∧
    w.sent = b.readableView.take nbytes.toNat ∧
    w.buffer.readableView = b.readableView.drop nbytes.toNat

section Certain

variable {ndebug : Bool} {b : WordBuffer} {nbytes : BitVec 32} {ns : ℕ → ℕ} {k : ℕ} {w : Writing}

lemma acceptedBy_mono (ns : ℕ → ℕ) : Monotone (acceptedBy ns) :=
  monotone_nat_of_le_succ fun _ => Nat.le_add_right ..

lemma run_results_succ {M : Machine Writing ℤ} {v : Writing} :
    M.run v (results ns (k + 1)) = some w ↔
      ∃ u, M.run v (results ns k) = some u ∧ M.step u (ns k) = some w := by
  rw [results, Machine.run_append, Option.bind_eq_some_iff]
  simp only [Machine.run_cons, Machine.run_nil, Option.bind_fun_some]

/-- The sends of the call have brought their bytes to the socket, whatever becomes of it. -/
lemma length_sent (hns : Accepting ndebug b nbytes ns)
    (hrun : ((Writer.writeCertain nbytes).machine ndebug).run
      ((Writer.writeCertain nbytes).start b) (results ns k) = some w) :
    w.sent.length = acceptedBy ns k := by
  induction k generalizing w with
  | zero =>
    rw [results, Machine.run_nil, Option.some_inj] at hrun
    rw [← hrun]
    rfl
  | succ k ih =>
    obtain ⟨v, hv, hstep⟩ := run_results_succ.mp hrun
    obtain ⟨hsend, rfl⟩ := Writer.step_eq_some.mp hstep
    obtain ⟨hle, -⟩ := hns k v hv hsend
    rw [acceptedBy, ← ih hv]
    rcases Nat.eq_zero_or_pos (ns k) with hzero | hpos
    · rw [hzero, Writer.resume, writeCertain, Int.natCast_zero, writeTurn_of_zero]
      rfl
    · obtain ⟨b', hturn, -⟩ := writeTurn_of_pos (w := v) (n := ns k) ndebug
        (fun _ => (v.total - ns k).bmod (2 ^ 32)) (by omega) (by omega)
      rw [Writer.resume, writeCertain, hturn]
      simp only [List.length_append, List.length_take, WordBuffer.length_readableView,
        Int.toNat_natCast]
      omega

/-- A call that has ended awaits no further result. -/
lemma run_results_of_lt {f : Writer} {v : Writing} {j : ℕ}
    (hrun : (f.machine ndebug).run v (results ns k) = some w) (hw : w.status ≠ .sending)
    (hj : k < j) : (f.machine ndebug).run v (results ns j) = none := by
  induction j, hj using Nat.le_induction with
  | base =>
    refine Option.eq_none_iff_forall_ne_some.mpr fun w' hw' => ?_
    obtain ⟨u, hu, hstep⟩ := run_results_succ.mp hw'
    rw [hrun, Option.some_inj] at hu
    exact hw (hu ▸ (Writer.step_eq_some.mp hstep).1)
  | succ j hj ih =>
    refine Option.eq_none_iff_forall_ne_some.mpr fun w' hw' => ?_
    obtain ⟨u, hu, -⟩ := run_results_succ.mp hw'
    rw [ih] at hu
    cases hu

/-- For a call that has ended only the results before its end count. -/
lemma accepting_of_ended (hrun : ((Writer.writeCertain nbytes).machine ndebug).run
      ((Writer.writeCertain nbytes).start b) (results ns k) = some w)
    (hw : w.status ≠ .sending)
    (hbefore : ∀ j < k, ∀ v, ((Writer.writeCertain nbytes).machine ndebug).run
      ((Writer.writeCertain nbytes).start b) (results ns j) = some v →
      ns j ≤ v.buffer.readable.toNat ∧ (0 < v.buffer.readable.toNat → 0 < ns j)) :
    Accepting ndebug b nbytes ns := by
  intro j v hv hsend
  rcases lt_trichotomy j k with hj | rfl | hj
  · exact hbefore j hj v hv
  · rw [hrun, Option.some_inj] at hv
    exact absurd (hv ▸ hsend) hw
  · rw [run_results_of_lt hrun hw hj] at hv
    cases hv

/-- A number of bytes that is not negative. -/
lemma toInt_of_nonneg (h : 0 ≤ nbytes.toInt) :
    nbytes.toInt = nbytes.toNat ∧ nbytes.toNat < 2 ^ 31 := by
  rw [BitVec.toInt_eq_toNat_cond] at h ⊢
  have hlt := nbytes.isLt
  split at h
  · next hcond =>
    rw [if_pos hcond]
    omega
  · omega

/-- As long as no send has reached past `nbytes`, the two counters are in step. -/
lemma run_certain (hpos : 0 ≤ nbytes.toInt) (hle : nbytes.toInt ≤ b.readable.toNat)
    (hns : Accepting ndebug b nbytes ns) (hbefore : ∀ j < k, acceptedBy ns j < nbytes.toNat)
    (hk : acceptedBy ns k ≤ nbytes.toNat) :
    ∃ w, ((Writer.writeCertain nbytes).machine ndebug).run
        ((Writer.writeCertain nbytes).start b) (results ns k) = some w ∧
      w.sent = b.readableView.take (acceptedBy ns k) ∧
      w.buffer.readableView = b.readableView.drop (acceptedBy ns k) ∧
      w.total = nbytes.toInt - acceptedBy ns k ∧
      w.status = if acceptedBy ns k = nbytes.toNat then .returned else .sending := by
  obtain ⟨hint, hlt⟩ := toInt_of_nonneg hpos
  induction k with
  | zero =>
    refine ⟨_, rfl, rfl, rfl, (Int.sub_zero _).symm, ?_⟩
    simp only [Writer.start, acceptedBy, hint, Int.natCast_eq_zero, eq_comm (a := 0)]
  | succ k ih =>
    have hearlier := hbefore k (Nat.lt_succ_self k)
    obtain ⟨v, hv, hsent, hview, htotal, hstatus⟩ :=
      ih (fun j hj => hbefore j (Nat.lt_succ_of_lt hj)) hearlier.le
    rw [if_neg hearlier.ne] at hstatus
    -- There are bytes left to be offered, so the send accepts some of them.
    have hreadable : v.buffer.readable.toNat = b.readable.toNat - acceptedBy ns k := by
      rw [← WordBuffer.length_readableView, hview, List.length_drop,
        WordBuffer.length_readableView]
    obtain ⟨hmost, hleast⟩ := hns k v hv hstatus
    have hsome := hleast (by omega)
    rw [acceptedBy] at hk
    have hleft : (v.total - ns k).bmod (2 ^ 32) = nbytes.toInt - acceptedBy ns (k + 1) := by
      rw [htotal, acceptedBy, Int.bmod_eq_of_le]
      · push_cast
        omega
      · push_cast
        omega
      · push_cast
        omega
    obtain ⟨b', hturn, hview', -⟩ := writeTurn_of_pos (w := v) (n := ns k) ndebug
      (fun _ => (v.total - ns k).bmod (2 ^ 32)) (by omega) (by omega)
    refine ⟨_, run_results_succ.mpr ⟨v, hv, Writer.step_eq_some.mpr ⟨hstatus, hturn⟩⟩, ?_, ?_,
      hleft, ?_⟩
    · simp only [hsent, hview, Int.toNat_natCast, acceptedBy, List.take_add]
    · rw [hview', hview, List.drop_drop, Int.toNat_natCast, acceptedBy]
    · simp only [hleft]
      congr 1
      rw [hint, eq_iff_iff]
      omega

end Certain

/-- **When `write_certain` writes the requested prefix**: when the sends, which are all offered
everything that is readable, at some point have accepted exactly the number of bytes asked for. -/
theorem writesCertain_iff (ndebug : Bool) (b : WordBuffer) (nbytes : BitVec 32) (ns : ℕ → ℕ)
    (hpos : 0 ≤ nbytes.toInt) (hle : nbytes.toInt ≤ b.readable.toNat)
    (hns : Accepting ndebug b nbytes ns) :
    WritesCertain ndebug b nbytes ns ↔ ∃ k, acceptedBy ns k = nbytes.toNat := by
  obtain ⟨hint, -⟩ := toInt_of_nonneg hpos
  constructor
  · rintro ⟨k, w, hrun, -, hsent, -⟩
    refine ⟨k, ?_⟩
    rw [← length_sent hns hrun, hsent, List.length_take, WordBuffer.length_readableView]
    omega
  · intro hex
    -- The call ends with the first send after which the number is reached.
    have hbefore : ∀ j < Nat.find hex, acceptedBy ns j < nbytes.toNat := by
      intro j hj
      have hmono := acceptedBy_mono ns hj.le
      rw [Nat.find_spec hex] at hmono
      exact lt_of_le_of_ne hmono (Nat.find_min hex hj)
    have hreached := Nat.find_spec hex
    obtain ⟨w, hrun, hsent, hview, -, hstatus⟩ := run_certain hpos hle hns hbefore hreached.le
    rw [hreached] at hsent hview hstatus
    exact ⟨Nat.find hex, w, hrun, by rw [hstatus, if_pos rfl], hsent, hview⟩

/-- Three of five bytes in two sends. -/
theorem writesCertain_iff_two_sends :
    WritesCertain true fiveLeft 3 (fun k => if k = 0 then 2 else 1) := by
  refine (writesCertain_iff true fiveLeft 3 _ (by decide) (by decide) ?_).mpr ⟨2, rfl⟩
  refine accepting_of_ended (k := 2) rfl (by decide) fun j hj v hv => ?_
  match j, hj with
  | 0, _ | 1, _ =>
    obtain rfl := Option.some_inj.mp hv
    decide

/-- One byte is asked for, and the first send accepts all five: the call makes another send, of
nothing, and throws. -/
theorem writesCertain_fails_past_one_byte :
    ¬ ∀ (b : WordBuffer) (nbytes : BitVec 32) (ns : ℕ → ℕ), 0 ≤ nbytes.toInt →
      nbytes.toInt ≤ b.readable.toNat → Accepting true b nbytes ns →
      WritesCertain true b nbytes ns := by
  intro h
  have haccepting : Accepting true fiveLeft 1 (fun k => if k = 0 then 5 else 0) := by
    refine accepting_of_ended (k := 2) rfl (by decide) fun j hj v hv => ?_
    match j, hj with
    | 0, _ | 1, _ =>
      obtain rfl := Option.some_inj.mp hv
      decide
  obtain ⟨k, w, hrun, -, hsent, -⟩ := h fiveLeft 1 _ (by decide) (by decide) haccepting
  have hlen := length_sent haccepting hrun
  rw [hsent] at hlen
  have hall : ∀ k, acceptedBy (fun k => if k = 0 then 5 else 0) k ≠ 1 := by
    intro k
    induction k with
    | zero => decide
    | succ k ih =>
      rcases Nat.eq_zero_or_pos k with rfl | hpos
      · decide
      · simp only [acceptedBy, if_neg hpos.ne', Nat.add_zero]
        exact ih
  exact hall k (hlen.symm.trans (by decide))

/-! ## Interrupted sends -/

/-- A result without effect: the call is not aborted, and the buffer and `total` are as they
were. -/
structure Kept (w w' : Writing) : Prop where
  survives : w'.status ≠ .aborted
  view : w'.buffer.readableView = w.buffer.readableView
  indexRead : w'.buffer.indexRead = w.buffer.indexRead
  indexWrite : w'.buffer.indexWrite = w.buffer.indexWrite
  total : w'.total = w.total

/-- Every interrupted send of the call is without effect, and what the socket has accepted is the
beginning of the content. -/
def InterruptsKept (ndebug : Bool) (f : Writer) (b : WordBuffer) (ns : List ℤ) : Prop :=
  (f.machine ndebug).Each (fun w n => n = -eIntr → Kept w (f.resume ndebug w n)) (f.start b) ns ∧
  ∀ w, (f.machine ndebug).run (f.start b) ns = some w → w.sent <+: b.readableView

/-- One of the sends of the call is interrupted. -/
def Interrupted (ndebug : Bool) (f : Writer) (b : WordBuffer) (ns : List ℤ) : Prop :=
  ∃ before after w, ns = before ++ -eIntr :: after ∧
    (f.machine ndebug).run (f.start b) before = some w ∧ w.status = .sending

/-- No buffer is the same after `-EINTR` was taken for a length. -/
lemma WordBuffer.hasRead_eIntr {ndebug : Bool} {b b' : WordBuffer}
    (h : b.hasRead ndebug (BitVec.ofInt 64 (-eIntr)) = some b') :
    ¬ (b'.indexRead = b.indexRead ∧ b'.indexWrite = b.indexWrite) := by
  have hlen : BitVec.ofInt 64 (-eIntr) = 18446744073709551612 := by decide
  rw [hasRead, hlen] at h
  rintro ⟨hread, hwrite⟩
  split at h
  · cases h
  · split at h
    · next hall =>
      -- The indices were reset to zero, but there was something to read before.
      rw [← Option.some_inj.mp h] at hread hwrite
      rw [readable, ← hread, ← hwrite] at hall
      change (18446744073709551612 : BitVec 64) = 0 - 0 at hall
      exact absurd hall (by decide)
    · rw [← Option.some_inj.mp h] at hread
      simp only at hread
      bv_omega

lemma not_kept_hasRead (ndebug : Bool) (w : Writing) (next : WordBuffer → ℤ) :
    ¬ Kept w ((w.accept (-eIntr)).hasRead ndebug (-eIntr) next) := by
  rw [accept_of_nonpos (by decide), Writing.hasRead]
  intro hkept
  split at hkept
  · exact hkept.survives rfl
  · next b hb => exact WordBuffer.hasRead_eIntr hb ⟨hkept.indexRead, hkept.indexWrite⟩

lemma Writer.not_kept (ndebug : Bool) (f : Writer) (w : Writing) :
    ¬ Kept w (f.resume ndebug w (-eIntr)) := by
  have hpass : ¬ (-eIntr < 0 ∧ -eIntr ≠ -eIntr) := fun hc => hc.2 rfl
  have hturn : ∀ next, ¬ Kept w (writeTurn ndebug w (-eIntr) next) := by
    intro next
    rw [writeTurn, if_neg (by decide), if_neg hpass]
    exact not_kept_hasRead ndebug w next
  cases f with
  | writeSome =>
    rw [resume, Coring.writeSome, if_neg hpass]
    exact not_kept_hasRead ndebug w _
  | writeCertain nbytes => exact hturn _
  | writeAll => exact hturn _

/-- **No interrupted send is without effect**, in whichever of the writers and whatever the buffer
and the other sends are. -/
theorem interrupted_not_kept (ndebug : Bool) (f : Writer) (b : WordBuffer) (ns : List ℤ)
    (h : Interrupted ndebug f b ns) : ¬ InterruptsKept ndebug f b ns := by
  obtain ⟨before, after, w, rfl, hrun, hw⟩ := h
  rintro ⟨heach, -⟩
  have hkept := Machine.Each.at_step _ heach hrun (Writer.step_eq_some.mpr ⟨hw, rfl⟩)
  exact f.not_kept ndebug w (hkept rfl)

/-- An interruption after a short write of `write_certain`. -/
theorem interrupted_not_kept_after_short_write :
    ¬ InterruptsKept true (.writeCertain 4) fiveLeft [2, -4, 3] :=
  interrupted_not_kept true (.writeCertain 4) fiveLeft [2, -4, 3] ⟨[2], [3], _, rfl, rfl, rfl⟩

/-- Two of five bytes are sent, and the next send is interrupted.  With the assertion the program is
aborted; without it two bytes that were read long before and the two just sent go out again. -/
theorem interrupted_send_repeats :
    (∃ w, (Writer.writeAll.machine true).run (Writer.writeAll.start fiveLeft) [2, -4, 7] = some w ∧
      w.status = .returned ∧ w.sent = [3, 4, 1, 2, 3, 4, 5, 6, 7] ∧
      ¬ w.sent <+: fiveLeft.readableView) ∧
    (∃ w, (Writer.writeAll.machine false).run (Writer.writeAll.start fiveLeft) [2, -4] = some w ∧
      w.status = .aborted) ∧
    ∀ ndebug, ¬ InterruptsKept ndebug .writeAll fiveLeft [2, -4] := by
  refine ⟨⟨_, rfl, rfl, by decide, by decide⟩, ⟨_, rfl, rfl⟩, fun ndebug h => ?_⟩
  have hrun : ∃ w, (Writer.writeAll.machine ndebug).run (Writer.writeAll.start fiveLeft) [2]
      = some w ∧ w.status = .sending := by
    cases ndebug with
    | false => exact ⟨_, rfl, rfl⟩
    | true => exact ⟨_, rfl, rfl⟩
  obtain ⟨w, hrun, hw⟩ := hrun
  have hsteps : Machine.Each _ _ _ ([2] ++ [-4]) := h.1
  have hkept := hsteps.at_step _ hrun (Writer.step_eq_some.mpr ⟨hw, rfl⟩)
  exact Writer.not_kept ndebug .writeAll w (hkept rfl)

end Coring
