import Coring.Buffer.Writers
import Coring.Http.Response

/-!
# What is sent on a connection

The web server sends by calls of `write_all`, one for the header of an answer and one for each block
of a file.  The kernel is the environment: it gives a result to every send, in their order.  A send
that fails ends the answer with an exception, and one that is not completed keeps it waiting; the
sends that have been made before have sent the beginning of the answer (`Sends`).

`writeAll` is a call of `write_all` by the bytes it is called for; `writeAll_eq_run` says that it is
the machine of `Coring.Buffer.Writers`.
-/

namespace Coring

namespace Http

/-- How a coroutine that answers ends, or what it awaits. -/
inductive SendOutcome
  | returned
  /-- With an exception that `do_http` catches. -/
  | threw (e : ReadError)
  /-- It awaits a send, -/
  | sending
  /-- or a read of the file. -/
  | reading
  /-- The assertion in `has_read` has failed. -/
  | aborted
  /-- `setContentTypeByPath` has written beyond its array. -/
  | overrun
  deriving Repr, DecidableEq

/-- What a coroutine has sent, how it ends, and the results of the sends that come after it. -/
structure Sent where
  bytes : Bytes
  outcome : SendOutcome
  rest : List ℤ := []
  deriving DecidableEq

namespace Sent

def behind (s : Sent) (bytes : Bytes) : Sent := { s with bytes := bytes ++ s.bytes }

/-- What is awaited next goes on once this has returned. -/
def andThen (s : Sent) (next : List ℤ → Sent) : Sent :=
  if s.outcome = .returned then (next s.rest).behind s.bytes else s

end Sent

/-- `write_all(conn, buf)`, for a buffer with these readable bytes, by the results of its sends.  An
interrupted send goes to `has_read` as if its result were a count. -/
def writeAll : List ℤ → Bytes → Sent
  | ns, [] => ⟨[], .returned, ns⟩
  | [], _ :: _ => ⟨[], .sending, []⟩
  | n :: ns, c :: cs =>
      if n = 0 then ⟨[], .threw .eofError, ns⟩
      else if n < 0 ∧ n ≠ -eIntr then ⟨[], .threw (.systemError (-n)), ns⟩
      else if n < 0 then ⟨[], .aborted, ns⟩
      else (writeAll ns ((c :: cs).drop n.toNat)).behind ((c :: cs).take n.toNat)

/-! ## Sending one thing after another -/

/-- The sends with these results have sent `whole` from its beginning on, and where there is an end
to it (`ends`) the coroutine returns behind it. -/
structure Sends (ns : List ℤ) (whole : Bytes) (ends : Prop) (s : Sent) : Prop where
  inOrder : s.bytes <+: whole
  returned : s.outcome = .returned ↔ s.bytes = whole ∧ ends
  /-- Nothing is left out if no send fails. -/
  complete : (∀ n ∈ ns, 0 < n) → s.outcome ≠ .sending → s.bytes = whole
  rest : s.rest <:+ ns

section Sends

variable {ns : List ℤ} {whole whole' bytes : Bytes} {ends : Prop} {s : Sent}

/-- A send that brings nothing to the socket ends the call. -/
lemma Sends.stopped {n : ℤ} (hn : n ≤ 0) {o : SendOutcome} (ho : o ≠ .returned) (hne : bytes ≠ []) :
    Sends (n :: ns) bytes True ⟨[], o, ns⟩ where
  inOrder := List.nil_prefix
  returned := ⟨fun h => absurd h ho, fun h => absurd h.1.symm hne⟩
  complete hpos := absurd (hpos n List.mem_cons_self) (not_lt.mpr hn)
  rest := List.suffix_cons n ns

lemma Sends.behind (h : Sends ns whole ends s) (n : ℤ) (bytes : Bytes) :
    Sends (n :: ns) (bytes ++ whole) ends (s.behind bytes) where
  inOrder := (List.prefix_append_right_inj bytes).mpr h.inOrder
  returned := by
    rw [Sent.behind, List.append_cancel_left_eq]
    exact h.returned
  complete hpos hout :=
    congrArg (bytes ++ ·) (h.complete (fun m hm => hpos m (List.mem_cons_of_mem n hm)) hout)
  rest := h.rest.trans (List.suffix_cons n ns)

lemma writeAll_sends : ∀ (ns : List ℤ) (bytes : Bytes), Sends ns bytes True (writeAll ns bytes)
  | ns, [] => by
      rw [writeAll]
      exact ⟨List.nil_prefix, by simp, fun _ _ => rfl, List.suffix_refl ns⟩
  | [], c :: cs => by
      rw [writeAll]
      exact ⟨List.nil_prefix, by simp, fun _ h => absurd rfl h, List.suffix_refl []⟩
  | n :: ns, c :: cs => by
      rw [writeAll]
      split
      · next hzero => exact .stopped hzero.le (by decide) (by simp)
      · split
        · next hneg => exact .stopped hneg.1.le (by simp) (by simp)
        · split
          · next hintr => exact .stopped hintr.le (by decide) (by simp)
          · have h := (writeAll_sends ns ((c :: cs).drop n.toNat)).behind n
              ((c :: cs).take n.toNat)
            rwa [List.take_append_drop] at h

/-- One thing behind the other. -/
lemma Sends.andThen (h : Sends ns whole True s) {next : List ℤ → Sent}
    (h' : Sends s.rest whole' ends (next s.rest)) :
    Sends ns (whole ++ whole') ends (s.andThen next) := by
  unfold Sent.andThen
  split
  · next hret =>
    have hbytes : s.bytes = whole := (h.returned.mp hret).1
    rw [hbytes]
    refine ⟨(List.prefix_append_right_inj whole).mpr h'.inOrder, ?_, fun hpos hout => ?_,
      h'.rest.trans h.rest⟩
    · rw [Sent.behind, List.append_cancel_left_eq]
      exact h'.returned
    · exact congrArg (whole ++ ·) (h'.complete (fun n hn => hpos n (h.rest.mem hn)) hout)
  · next hret =>
    have hnot : s.bytes ≠ whole := fun heq => hret (h.returned.mpr ⟨heq, trivial⟩)
    refine ⟨h.inOrder.trans (List.prefix_append whole whole'), ?_, fun hpos hout => ?_, h.rest⟩
    · -- What is sent is a part of the first thing.
      refine ⟨fun hout => absurd hout hret, fun ⟨heq, _⟩ => absurd ?_ hnot⟩
      have hle := h.inOrder.length_le
      rw [heq, List.length_append] at hle
      exact h.inOrder.eq_of_length (by rw [heq, List.length_append]; omega)
    · exact absurd (h.complete hpos hout) hnot

end Sends

/-! ## The machine of `write_all` -/

section Machine

variable {w w' : Writing} {ns rest : List ℤ}

def outcome : WriteStatus → SendOutcome
  | .sending => .sending
  | .returned => .returned
  | .threw e => .threw e
  | .aborted => .aborted

/-- A call that has ended takes no result. -/
lemma run_ended (hw : w.status ≠ .sending)
    (h : (Writer.writeAll.machine false).run w ns = some w') : ns = [] ∧ w' = w := by
  cases ns with
  | nil => exact ⟨rfl, (Option.some_inj.mp h).symm⟩
  | cons n ns =>
    obtain ⟨u, hu, -⟩ := (Writer.writeAll.machine false).run_cons_eq_some.mp h
    exact absurd (Writer.step_eq_some.mp hu).1 hw

/-- The assertion fails on an interrupted send, as no buffer has so many bytes. -/
lemma writeTurn_of_intr (next : WordBuffer → ℤ) (hsize : w.buffer.readable.toNat < 2 ^ 63) :
    writeTurn false w (-eIntr) next = { w with status := .aborted } := by
  have hlt : ¬ BitVec.ofInt 64 (-eIntr) ≤ w.buffer.readable := by
    have hval : (BitVec.ofInt 64 (-eIntr)).toNat = 2 ^ 64 - 4 := rfl
    rw [BitVec.le_def, hval]
    omega
  rw [writeTurn, if_neg (by decide), if_neg (by decide), accept_of_nonpos (by decide)]
  simp only [Writing.hasRead, WordBuffer.hasRead]
  rw [if_pos ⟨trivial, hlt⟩]

/-- A call between two sends, or at its end. -/
def Going (w : Writing) : Prop :=
  w.status = if w.buffer.readableView = [] then .returned else .sending

lemma readable_eq_zero_iff (b : WordBuffer) :
    (b.readable.toNat : ℤ) = 0 ↔ b.readableView = [] := by
  rw [← b.length_readableView, Int.natCast_eq_zero, List.length_eq_zero_iff]

lemma going_start (b : WordBuffer) : Going (Writer.writeAll.start b) := by
  simp only [Going, Writer.start, readable_eq_zero_iff]

/-- A call goes on as `writeAll` does; if it awaits a send there are no further results. -/
lemma writeAll_run : ∀ {ns : List ℤ} {w : Writing}, Going w →
    w.buffer.readable.toNat < 2 ^ 63 →
    (Writer.writeAll.machine false).Each (fun w n => n ≤ w.buffer.readable.toNat) w ns →
    (Writer.writeAll.machine false).run w ns = some w' → (w'.status = .sending → rest = []) →
    ∃ sent, w'.sent = w.sent ++ sent ∧
      writeAll (ns ++ rest) w.buffer.readableView = ⟨sent, outcome w'.status, rest⟩
  | [], w, hw, _, _, hrun, hrest => by
      rw [Machine.run_nil, Option.some_inj] at hrun
      subst hrun
      refine ⟨[], (List.append_nil _).symm, ?_⟩
      rw [Going] at hw
      cases hview : w.buffer.readableView with
      | nil =>
        rw [hw, if_pos hview, writeAll]
        rfl
      | cons c cs =>
        rw [hview, if_neg (by simp)] at hw
        rw [hrest hw, hw]
        rfl
  | n :: ns, w, hw, hsize, hns, hrun, hrest => by
      obtain ⟨u, hu, hrun⟩ := (Writer.writeAll.machine false).run_cons_eq_some.mp hrun
      obtain ⟨hle, hns⟩ := ((Writer.writeAll.machine false).each_cons_some hu).mp hns
      obtain ⟨hsend, rfl⟩ := Writer.step_eq_some.mp hu
      obtain ⟨c, cs, hview⟩ : ∃ c cs, w.buffer.readableView = c :: cs := by
        refine List.exists_cons_of_ne_nil fun hnil => ?_
        rw [Going, if_pos hnil, hsend] at hw
        cases hw
      rw [List.cons_append, hview, writeAll, ← hview]
      change (Writer.writeAll.machine false).run (Coring.writeAll false w n) ns = some w' at hrun
      change (Writer.writeAll.machine false).Each _ (Coring.writeAll false w n) ns at hns
      -- A result that is no count ends the call.
      have hended : ∀ status, status ≠ .sending →
          Coring.writeAll false w n = { w with status := status } →
          ns = [] ∧ w' = { w with status := status } := fun status hstatus heq => by
        rw [heq] at hrun
        exact run_ended hstatus hrun
      split
      · next hzero =>
        subst hzero
        obtain ⟨rfl, rfl⟩ := hended (.threw .eofError) (by decide) writeTurn_of_zero
        exact ⟨[], (List.append_nil _).symm, rfl⟩
      · split
        · next hneg =>
          obtain ⟨rfl, rfl⟩ := hended (.threw (.systemError (-n))) (by simp)
            (writeTurn_of_neg hneg.1 hneg.2)
          exact ⟨[], (List.append_nil _).symm, rfl⟩
        · split
          · next hne hneg hlt =>
            obtain rfl : n = -eIntr := by
              by_contra hnot
              exact hneg ⟨hlt, hnot⟩
            obtain ⟨rfl, rfl⟩ := hended .aborted (by decide) (writeTurn_of_intr _ hsize)
            exact ⟨[], (List.append_nil _).symm, rfl⟩
          · obtain ⟨b, hturn, hb, -⟩ := writeTurn_of_pos false
              (fun b : WordBuffer => (b.readable.toNat : ℤ)) (show 0 < n by omega) hle
            rw [Coring.writeAll, hturn] at hrun hns
            have hsize' : b.readable.toNat < 2 ^ 63 := by
              rw [← b.length_readableView, hb, List.length_drop, w.buffer.length_readableView]
              omega
            obtain ⟨sent, hsent, heq⟩ := writeAll_run (by simp only [Going, readable_eq_zero_iff])
              hsize' hns hrun hrest
            refine ⟨w.buffer.readableView.take n.toNat ++ sent, ?_, ?_⟩
            · rw [hsent, List.append_assoc]
            · rw [← hb, heq]
              rfl

/-- **`writeAll` is the coroutine.** -/
theorem writeAll_eq_run {b : WordBuffer} (hsize : b.readable.toNat < 2 ^ 63)
    (hns : (Writer.writeAll.machine false).Each (fun w n => n ≤ w.buffer.readable.toNat)
      (Writer.writeAll.start b) ns)
    (hrun : (Writer.writeAll.machine false).run (Writer.writeAll.start b) ns = some w)
    (hrest : w.status = .sending → rest = []) :
    writeAll (ns ++ rest) b.readableView = ⟨w.sent, outcome w.status, rest⟩ := by
  obtain ⟨sent, hsent, heq⟩ := writeAll_run (going_start b) hsize hns hrun hrest
  rw [show w.sent = sent from hsent]
  exact heq

end Machine

end Http

end Coring
