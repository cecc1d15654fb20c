import Coring.Uring.LinkedTimeout
import Mathlib.Data.List.Perm.Subperm

/-!
# Every operation gets its own completion

The program, the walk over the completion ring and the kernel as one machine.  Coroutines start
operations with a linked timeout, operations without one, and entries that nobody awaits; the
run loop submits and walks over the completions; the kernel completes what it was handed, each
entry once, in any order, with any result.  An awaiting coroutine has a token of its own.

`Own` is what an operation with a linked timeout relies on: its two entries are neighbours in
one submission, exactly one entry carries its token, and it has been resumed as often as the
completion of that entry has been delivered, which is at most once.  It fails at once when such
an operation is started with exactly one free slot, and `own_iff_not_lastSlot` shows that in a
run it holds throughout if and only if this never happens.
-/

namespace Coring.Uring

/-- An operation with a linked timeout. -/
inductive LinkedOp
  | recvSome
  | sendSome
  | connectTo
  deriving Repr, DecidableEq

namespace LinkedOp

def opcode : LinkedOp → Opcode
  | .recvSome => .recv
  | .sendSome => .send
  | .connectTo => .connect

variable {k : Fin 32}

def run (op : LinkedOp) (c : Context k) (t : TokenPtr) : Option (Context k) :=
  match op with
  | .recvSome => c.recvSome t
  | .sendSome => c.sendSome t
  | .connectTo => c.connectTo t

lemma run_eq (op : LinkedOp) (c : Context k) (t : TokenPtr) :
    op.run c t = c.withTimeout op.opcode t := by
  cases op <;> rfl

/-- The entry of the operation itself. -/
def sqe (op : LinkedOp) (t : TokenPtr) : Sqe := ⟨op.opcode, true, .token t⟩

end LinkedOp

structure System (k : Fin 32) where
  walk : State k
  /-- The numbers of the entries the kernel has completed, in order. -/
  completed : List ℕ
  /-- The operations with a linked timeout, with their tokens. -/
  linked : List (LinkedOp × TokenPtr)
  /-- How many tokens are in use. -/
  tokens : ℕ

namespace System

variable {k : Fin 32} {s s' : System k}

/-- A new context with a submission queue of a given capacity. -/
def start (k : Fin 32) (capacity : ℕ) : System k where
  walk :=
    { ctx :=
        { sq := ⟨capacity, fun _ => ⟨.other, false, .null⟩, 0, 0⟩
          cq := ⟨0, 0, fun _ => ⟨.null, 0, 0⟩⟩
          cqeCount := 0
          submissions := [] }
      pc := .idle
      posted := []
      passed := 0
      resolves := [] }
  completed := []
  linked := []
  tokens := 0

inductive Act
  /-- A coroutine starts an operation with a linked timeout. -/
  | linked (op : LinkedOp)
  /-- A coroutine awaits an operation without one. -/
  | plain (opcode : Opcode)
  /-- An entry is queued that nobody awaits. -/
  | detached (opcode : Opcode)
  /-- The run loop submits what is queued. -/
  | submit
  /-- The kernel completes the entry with this number. -/
  | complete (i : ℕ) (res : ℤ) (flags : BitVec 32)
  /-- `handle_completions` goes on. -/
  | enter
  | next
  | resolve
  | suspend

/-- The system with another context. -/
def withCtx (s : System k) (c : Context k) : System k := { s with walk := { s.walk with ctx := c } }

/-- The system with the walk a step further. -/
def walkStep (s : System k) (a : Action) : Option (System k) := do
  let walk ← Uring.step s.walk a
  some { s with walk := walk }

def step (s : System k) : Act → Option (System k)
  | .linked op =>
      if s.walk.pc.InProgram then do
        let c ← op.run s.walk.ctx s.tokens
        some { s.withCtx c with
          linked := s.linked ++ [(op, s.tokens)], tokens := s.tokens + 1 }
      else none
  | .plain opcode =>
      if s.walk.pc.InProgram then do
        let c ← s.walk.ctx.awaitPlain opcode s.tokens
        some { s.withCtx c with tokens := s.tokens + 1 }
      else none
  | .detached opcode =>
      if s.walk.pc.InProgram then do
        let (c, _) ← s.walk.ctx.prepare opcode false
        some (s.withCtx c)
      else none
  | .submit => if s.walk.pc = .idle then some (s.withCtx s.walk.ctx.submit) else none
  | .complete i res flags => do
      let sqe ← s.walk.ctx.handed[i]?
      if i ∉ s.completed then
        let s ← s.walkStep (.post ⟨sqe.userData, res, flags⟩)
        some { s with completed := s.completed ++ [i] }
      else none
  | .enter => s.walkStep .enter
  | .next => s.walkStep .next
  | .resolve => s.walkStep .resolve
  | .suspend => s.walkStep .suspend

def machine : Machine (System k) Act := ⟨step⟩

/-! ## The property and the condition -/

/-- Whether an entry carries a token. -/
def carries (t : TokenPtr) (e : Sqe) : Bool := e.userData = .token t

/-- How often the coroutine of a token has been resumed. -/
def resumed (s : System k) (t : TokenPtr) : ℕ := s.walk.resolves.countP fun r => r.1 = t

/-- How many completions of entries that carry the token have been delivered. -/
def delivered (s : System k) (t : TokenPtr) : ℕ :=
  (s.completed.take s.walk.read).countP fun i => s.walk.ctx.handed[i]?.any (carries t)

/-- What an operation with a linked timeout relies on. -/
structure OwnCompletion (s : System k) (op : LinkedOp) (t : TokenPtr) : Prop where
  /-- Its entries are neighbours in one submission. -/
  adjacent : ∃ b ∈ s.walk.ctx.batches, [op.sqe t, Context.timeoutSqe] <:+: b
  /-- Exactly one entry carries its token. -/
  unique : s.walk.ctx.entries.countP (carries t) = 1
  /-- It is resumed by the completion of that entry, at most once. -/
  resumed : s.resumed t = s.delivered t ∧ s.delivered t ≤ 1

def Own (s : System k) : Prop := ∀ op t, (op, t) ∈ s.linked → OwnCompletion s op t

/-- An operation with a linked timeout is not started with exactly one free slot. -/
def NotLastSlot (s : System k) : Act → Prop
  | .linked _ => s.walk.ctx.sq.used ≠ s.walk.ctx.sq.capacity - 1
  | _ => True

instance (s : System k) : (a : Act) → Decidable (NotLastSlot s a)
  | .linked _ => inferInstanceAs (Decidable (_ ≠ _))
  | .plain _ | .detached _ | .submit | .complete .. | .enter | .next | .resolve | .suspend =>
      inferInstanceAs (Decidable True)

/-! ## The invariant -/

structure Inv (s : System k) : Prop where
  walk : ∃ consumed count, Uring.Inv 0 s.walk consumed count
  fits : s.walk.ctx.sq.Fits
  nodup : s.completed.Nodup
  /-- Each completion in the ring is that of a different entry handed over. -/
  posted : s.completed.map (fun i => s.walk.ctx.handed[i]?.map Sqe.userData)
    = s.walk.posted.map fun c => some c.userData
  fresh : ∀ e ∈ s.walk.ctx.entries, ∀ t, e.userData = .token t → t < s.tokens
  linked : ∀ x ∈ s.linked, x.2 < s.tokens

lemma inv_start {capacity : ℕ} (h : 2 ≤ capacity) : Inv (start k capacity) where
  walk := by
    refine ⟨0, 0, Start.inv ⟨?_, rfl, rfl, rfl, rfl, rfl, rfl, Nat.zero_le _, holds_nil _ _ _⟩⟩
    exact Nat.lt_of_lt_of_le (by decide) h
  fits := ⟨h, Nat.le_refl _, Nat.zero_le _⟩
  nodup := List.nodup_nil
  posted := rfl
  fresh := fun e he => by cases he
  linked := fun x hx => by cases hx

/-! ## Resumptions -/

/-- The entries at different places that pass a test are no more than those that do. -/
lemma countP_getElem?_le {α : Type} (p : α → Bool) (xs : List α) {l : List ℕ} (hl : l.Nodup) :
    (l.countP fun i => xs[i]?.any p) ≤ xs.countP p := by
  have hall : ((List.range xs.length).map fun i => xs[i]?) = xs.map some := by
    refine List.ext_getElem (by simp) fun i h₁ h₂ => ?_
    have hi : i < xs.length := by simpa using h₁
    simp [hi]
  have hcount : (List.range xs.length).countP (fun i => xs[i]?.any p) = xs.countP p := by
    have hmap := congrArg (List.countP (Option.any p)) hall
    rw [List.countP_map, List.countP_map] at hmap
    exact hmap
  rw [← hcount, List.countP_eq_length_filter, List.countP_eq_length_filter]
  refine (List.Nodup.subperm (hl.filter _) fun i hi => ?_).length_le
  obtain ⟨-, hany⟩ := List.mem_filter.mp hi
  refine List.mem_filter.mpr ⟨List.mem_range.mpr ?_, hany⟩
  by_contra hge
  simp [List.getElem?_eq_none (Nat.le_of_not_lt hge)] at hany

lemma countP_deliveries (cs : List Cqe) (t : TokenPtr) :
    (deliveries cs).countP (fun r => r.1 = t) = cs.countP fun c => c.userData = .token t := by
  induction cs with
  | nil => rfl
  | cons c cs ih =>
    rw [deliveries] at ih ⊢
    cases hc : c.userData with
    | null => simp [hc, ih]
    | udataTimeout => simp [hc, ih]
    | token t' => simp [hc, ih, List.countP_cons]

/-- A coroutine is resumed as often as a completion with its token is delivered. -/
lemma Inv.resumed_eq (h : Inv s) (t : TokenPtr) : s.resumed t = s.delivered t := by
  obtain ⟨consumed, count, hw⟩ := h.walk
  have hposted : (s.completed.take s.walk.read).map
      (fun i => s.walk.ctx.handed[i]?.map Sqe.userData)
      = (s.walk.posted.take s.walk.read).map fun c => some c.userData := by
    rw [List.map_take, List.map_take, h.posted]
  have hcount := congrArg (List.countP fun o => o = some (UserData.token t)) hposted
  rw [List.countP_map, List.countP_map] at hcount
  rw [resumed, hw.resolves, countP_deliveries, delivered]
  refine Eq.trans ?_ (hcount.symm.trans ?_)
  · exact List.countP_congr fun c _ => by simp
  · refine List.countP_congr fun i _ => ?_
    cases hi : s.walk.ctx.handed[i]? with
    | none => simp [hi]
    | some e => simp [hi, carries]

/-- With the walk and the entries in order, neighbourhood and uniqueness are all there is to
show. -/
lemma Inv.own (h : Inv s) {op : LinkedOp} {t : TokenPtr}
    (hadj : ∃ b ∈ s.walk.ctx.batches, [op.sqe t, Context.timeoutSqe] <:+: b)
    (huniq : s.walk.ctx.entries.countP (carries t) = 1) : OwnCompletion s op t := by
  refine ⟨hadj, huniq, h.resumed_eq t, ?_⟩
  calc s.delivered t
      ≤ s.walk.ctx.handed.countP (carries t) :=
        countP_getElem?_le _ _ (h.nodup.sublist (List.take_sublist _ _))
    _ ≤ s.walk.ctx.entries.countP (carries t) := by
        rw [Context.entries, List.countP_append]
        exact Nat.le_add_right _ _
    _ = 1 := huniq

/-! ## Steps of the program -/

variable {c : Context k} {x : List Sqe}

lemma Inv.handed_isSome (h : Inv s) {i : ℕ} (hi : i ∈ s.completed) :
    ∃ e, s.walk.ctx.handed[i]? = some e := by
  have hmem : s.walk.ctx.handed[i]?.map Sqe.userData
      ∈ s.walk.posted.map fun c => some c.userData := by
    rw [← h.posted]
    exact List.mem_map_of_mem hi
  obtain ⟨c, -, hc⟩ := List.mem_map.mp hmem
  obtain ⟨e, he, -⟩ := Option.map_eq_some_iff.mp hc.symm
  exact ⟨e, he⟩

/-- More entries, with tokens that are accounted for. -/
lemma Inv.grow (h : Inv s) (hg : Context.Grows s.walk.ctx c x)
    (hw : ∃ consumed count, Uring.Inv 0 { s.walk with ctx := c } consumed count)
    {linked : List (LinkedOp × TokenPtr)} {tokens : ℕ} (hle : s.tokens ≤ tokens)
    (hx : ∀ e ∈ x, ∀ t, e.userData = .token t → t < tokens)
    (hl : ∀ y ∈ linked, y.2 < tokens) :
    Inv { s.withCtx c with linked := linked, tokens := tokens } where
  walk := hw
  fits := hg.fits
  nodup := h.nodup
  posted := by
    refine Eq.trans (List.map_congr_left fun i hi => ?_) h.posted
    obtain ⟨e, he⟩ := h.handed_isSome hi
    obtain ⟨hlt, -⟩ := List.getElem?_eq_some_iff.mp he
    obtain ⟨r, hr⟩ := hg.handed
    change c.handed[i]?.map _ = _
    rw [← hr, List.getElem?_append_left hlt]
  fresh := by
    intro e he t ht
    change e ∈ c.entries at he
    rw [hg.entries] at he
    rcases List.mem_append.mp he with he | he
    · exact Nat.lt_of_lt_of_le (h.fresh e he t ht) hle
    · exact hx e he t ht
  linked := hl

lemma Inv.countP_fresh (h : Inv s) : s.walk.ctx.entries.countP (carries s.tokens) = 0 := by
  rw [List.countP_eq_zero]
  intro e he hc
  exact Nat.lt_irrefl _ (h.fresh e he _ (of_decide_eq_true hc))

/-- The operations started before keep what they have. -/
lemma OwnCompletion.grow {op : LinkedOp} {t : TokenPtr} (ho : OwnCompletion s op t)
    (hg : Context.Grows s.walk.ctx c x) (hx : x.countP (carries t) = 0) :
    (∃ b ∈ c.batches, [op.sqe t, Context.timeoutSqe] <:+: b) ∧
      c.entries.countP (carries t) = 1 := by
  refine ⟨hg.batches _ ho.adjacent, ?_⟩
  rw [hg.entries, List.countP_append, ho.unique, hx]

/-- Taking a slot keeps the walk in order. -/
lemma walk_prepare {w : State k} (h : ∃ consumed count, Uring.Inv 0 w consumed count)
    (hpc : w.pc.InProgram = true) {opcode : Opcode} {link : Bool} {c : Context k} {i : ℕ}
    (hc : w.ctx.prepare opcode link = some (c, i)) :
    ∃ consumed count, Uring.Inv 0 { w with ctx := c } consumed count := by
  obtain ⟨consumed, count, hw⟩ := h
  obtain ⟨c₁, j, hget, hinv⟩ := hw.getSqe hpc
  simp only [Context.prepare, hget, Option.bind_eq_bind, Option.bind_some, Option.some_inj,
    Prod.mk.injEq] at hc
  rw [← hc.1]
  exact hinv _

lemma walk_awaitSuspend {w : State k} (h : ∃ consumed count, Uring.Inv 0 w consumed count)
    (i : ℕ) (t : TokenPtr) :
    ∃ consumed count, Uring.Inv 0 { w with ctx := w.ctx.awaitSuspend i t } consumed count := by
  obtain ⟨consumed, count, hw⟩ := h
  exact ⟨consumed, count, hw.withSq rfl rfl hw.capacity⟩

lemma walk_withTimeout {w : State k} (h : ∃ consumed count, Uring.Inv 0 w consumed count)
    (hpc : w.pc.InProgram = true) {opcode : Opcode} {t : TokenPtr} {c : Context k}
    (hc : w.ctx.withTimeout opcode t = some c) :
    ∃ consumed count, Uring.Inv 0 { w with ctx := c } consumed count := by
  simp only [Context.withTimeout, Context.linkTimeout, Option.bind_eq_bind,
    Option.bind_eq_some_iff, Option.some_inj] at hc
  obtain ⟨⟨c₁, i⟩, hc₁, c₂, ⟨⟨c₂', j⟩, hc₂, rfl⟩, rfl⟩ := hc
  have h₁ := walk_prepare h hpc hc₁
  have h₂ := walk_prepare (w := { w with ctx := c₁ }) h₁ hpc hc₂
  exact walk_awaitSuspend (w := { w with ctx := c₂' }) h₂ i t

lemma walk_awaitPlain {w : State k} (h : ∃ consumed count, Uring.Inv 0 w consumed count)
    (hpc : w.pc.InProgram = true) {opcode : Opcode} {t : TokenPtr} {c : Context k}
    (hc : w.ctx.awaitPlain opcode t = some c) :
    ∃ consumed count, Uring.Inv 0 { w with ctx := c } consumed count := by
  simp only [Context.awaitPlain, Option.bind_eq_bind, Option.bind_eq_some_iff,
    Option.some_inj] at hc
  obtain ⟨⟨c₁, i⟩, hc₁, rfl⟩ := hc
  exact walk_awaitSuspend (w := { w with ctx := c₁ }) (walk_prepare h hpc hc₁) i t

/-! ## Steps of the kernel and of the walk -/

/-- A step that leaves the submission queue alone and adds no completion. -/
lemma Inv.frame (h : Inv s) {w : State k} (hsq : w.ctx.sq = s.walk.ctx.sq)
    (hsub : w.ctx.submissions = s.walk.ctx.submissions) (hposted : w.posted = s.walk.posted)
    (hw : ∃ consumed count, Uring.Inv 0 w consumed count) : Inv { s with walk := w } where
  walk := hw
  fits := by rw [hsq]; exact h.fits
  nodup := h.nodup
  posted := by
    rw [Context.handed, hsub, hposted]
    exact h.posted
  fresh := by
    rw [Context.entries, Context.handed, hsub, hsq]
    exact h.fresh
  linked := h.linked

/-- A completion of an entry that had none. -/
lemma Inv.complete (h : Inv s) {w : State k} {i : ℕ} {e : Sqe} {c : Cqe}
    (he : s.walk.ctx.handed[i]? = some e) (hi : i ∉ s.completed)
    (hc : c.userData = e.userData) (hsq : w.ctx.sq = s.walk.ctx.sq)
    (hsub : w.ctx.submissions = s.walk.ctx.submissions) (hposted : w.posted = s.walk.posted ++ [c])
    (hw : ∃ consumed count, Uring.Inv 0 w consumed count) :
    Inv { s with walk := w, completed := s.completed ++ [i] } where
  walk := hw
  fits := by rw [hsq]; exact h.fits
  nodup := by
    rw [← List.concat_eq_append]
    exact h.nodup.concat hi
  posted := by
    rw [Context.handed, hsub, hposted, List.map_append, List.map_append, ← Context.handed,
      h.posted, List.map_singleton, List.map_singleton, he, hc]
    rfl
  fresh := by
    rw [Context.entries, Context.handed, hsub, hsq]
    exact h.fresh
  linked := h.linked

/-! ## What a step does -/

/-- A step that starts no operation with a linked timeout: it may add entries, and none of them
carries a token in use before. -/
structure Quiet (s s' : System k) : Prop where
  inv : Inv s'
  linked : s'.linked = s.linked
  grows : ∃ x, Context.Grows s.walk.ctx s'.walk.ctx x ∧
    ∀ t < s.tokens, x.countP (carries t) = 0

lemma Quiet.own (hq : Quiet s s') (h : Inv s) (ho : Own s) : Own s' := by
  intro op t hmem
  rw [hq.linked] at hmem
  obtain ⟨x, hg, hx⟩ := hq.grows
  obtain ⟨hadj, huniq⟩ := (ho op t hmem).grow hg (hx t (h.linked _ hmem))
  exact hq.inv.own hadj huniq

lemma quiet_plain (h : Inv s) {opcode : Opcode} (hs : step s (.plain opcode) = some s') :
    Quiet s s' := by
  simp only [step] at hs
  split at hs
  · next hpc =>
    obtain ⟨c, hc, hg⟩ := Context.awaitPlain_spec h.fits opcode s.tokens
    simp only [hc, Option.bind_eq_bind, Option.bind_some, Option.some_inj] at hs
    subst hs
    refine ⟨h.grow hg (walk_awaitPlain h.walk hpc hc) (Nat.le_succ _) ?_ ?_, rfl, _, hg, ?_⟩
    · intro e he t ht
      rw [List.mem_singleton.mp he] at ht
      cases ht
      exact Nat.lt_succ_self _
    · exact fun y hy => Nat.lt_succ_of_lt (h.linked y hy)
    · intro t ht
      simp [carries, Nat.ne_of_gt ht]
  · cases hs

lemma quiet_detached (h : Inv s) {opcode : Opcode} (hs : step s (.detached opcode) = some s') :
    Quiet s s' := by
  simp only [step] at hs
  split at hs
  · next hpc =>
    obtain ⟨c, hc, hg⟩ := Context.prepare_spec h.fits opcode false
    simp only [hc, Option.bind_eq_bind, Option.bind_some, Option.some_inj] at hs
    subst hs
    refine ⟨h.grow hg (walk_prepare h.walk hpc hc) (Nat.le_refl _) ?_ h.linked, rfl, _, hg, ?_⟩
    · intro e he t ht
      rw [List.mem_singleton.mp he] at ht
      cases ht
    · intro t _
      simp [carries]
  · cases hs

lemma quiet_submit (h : Inv s) (hs : step s .submit = some s') : Quiet s s' := by
  simp only [step] at hs
  split at hs
  · rw [← Option.some_inj.mp hs]
    have hg := Context.grows_submit h.fits
    obtain ⟨consumed, count, hw⟩ := h.walk
    refine ⟨h.grow hg ⟨consumed, count, hw.withSq rfl rfl hw.capacity⟩ (Nat.le_refl _) ?_
      h.linked, rfl, _, hg, fun _ _ => rfl⟩
    exact fun e he => by cases he
  · cases hs

lemma quiet_complete (h : Inv s) {i : ℕ} {res : ℤ} {flags : BitVec 32}
    (hs : step s (.complete i res flags) = some s') : Quiet s s' := by
  simp only [step, Option.bind_eq_bind, Option.bind_eq_some_iff] at hs
  obtain ⟨e, he, hs⟩ := hs
  split at hs
  · next hi =>
    simp only [walkStep, Option.bind_eq_bind, Option.bind_eq_some_iff, Option.some_inj] at hs
    obtain ⟨_, ⟨w, hw, rfl⟩, rfl⟩ := hs
    have hinv := Uring.step_inv h.walk hw
    obtain ⟨cq, -, rfl⟩ : ∃ cq, _ ∧ _ := by
      simpa only [Uring.step, Option.bind_eq_bind, Option.bind_eq_some_iff, Option.some_inj]
        using hw
    exact ⟨h.complete he hi rfl rfl rfl rfl hinv, rfl, [], Context.grows_of_eq h.fits rfl rfl,
      fun _ _ => rfl⟩
  · cases hs

lemma quiet_walk (h : Inv s) {a : Action} (hpost : ∀ c, a ≠ .post c)
    (hget : ∀ sqe, a ≠ .getSqe sqe) (hs : s.walkStep a = some s') : Quiet s s' := by
  simp only [walkStep, Option.bind_eq_bind, Option.bind_eq_some_iff, Option.some_inj] at hs
  obtain ⟨w, hw, rfl⟩ := hs
  obtain ⟨hsq, hsub, hposted⟩ := Uring.step_frame hpost hget hw
  exact ⟨h.frame hsq hsub hposted (Uring.step_inv h.walk hw), rfl, [],
    Context.grows_of_eq h.fits hsq hsub, fun _ _ => rfl⟩

/-- The start of an operation with a linked timeout. -/
lemma linked_spec (h : Inv s) {op : LinkedOp} (hs : step s (.linked op) = some s') :
    Inv s' ∧ s'.linked = s.linked ++ [(op, s.tokens)] ∧
      (s.walk.ctx.sq.used ≠ s.walk.ctx.sq.capacity - 1 →
        Context.Grows s.walk.ctx s'.walk.ctx [op.sqe s.tokens, Context.timeoutSqe] ∧
        ∃ b ∈ s'.walk.ctx.batches, [op.sqe s.tokens, Context.timeoutSqe] <:+: b) ∧
      (s.walk.ctx.sq.used = s.walk.ctx.sq.capacity - 1 →
        Context.Grows s.walk.ctx s'.walk.ctx
          [⟨op.opcode, true, .null⟩, Context.timeoutSqe]) := by
  simp only [step, LinkedOp.run_eq] at hs
  split at hs
  · next hpc =>
    obtain ⟨c, hc, hfree, hlast⟩ := Context.withTimeout_spec h.fits op.opcode s.tokens
    simp only [hc, Option.bind_eq_bind, Option.bind_some, Option.some_inj] at hs
    subst hs
    refine ⟨?_, rfl, hfree, hlast⟩
    have hw := walk_withTimeout h.walk hpc hc
    have hlinked : ∀ y ∈ s.linked ++ [(op, s.tokens)], y.2 < s.tokens + 1 := by
      intro y hy
      rcases List.mem_append.mp hy with hy | hy
      · exact Nat.lt_succ_of_lt (h.linked y hy)
      · rw [List.mem_singleton.mp hy]
        exact Nat.lt_succ_self _
    by_cases hused : s.walk.ctx.sq.used = s.walk.ctx.sq.capacity - 1
    · refine h.grow (hlast hused) hw (Nat.le_succ _) (fun e he t ht => ?_) hlinked
      simp only [List.mem_cons, List.not_mem_nil, or_false] at he
      rcases he with rfl | rfl <;> cases ht
    · refine h.grow (hfree hused).1 hw (Nat.le_succ _) (fun e he t ht => ?_) hlinked
      simp only [List.mem_cons, List.not_mem_nil, or_false] at he
      rcases he with rfl | rfl <;> cases ht
      exact Nat.lt_succ_self _
  · cases hs

/-- Every step either starts an operation with a linked timeout or is quiet. -/
lemma step_cases (h : Inv s) {a : Act} (hs : step s a = some s') :
    (∃ op, a = .linked op) ∨ ((∀ op, a ≠ .linked op) ∧ Quiet s s') := by
  cases a with
  | linked op => exact .inl ⟨op, rfl⟩
  | plain opcode => exact .inr ⟨by simp, quiet_plain h hs⟩
  | detached opcode => exact .inr ⟨by simp, quiet_detached h hs⟩
  | submit => exact .inr ⟨by simp, quiet_submit h hs⟩
  | complete i res flags => exact .inr ⟨by simp, quiet_complete h hs⟩
  | enter => exact .inr ⟨by simp, quiet_walk h (by simp) (by simp) hs⟩
  | next => exact .inr ⟨by simp, quiet_walk h (by simp) (by simp) hs⟩
  | resolve => exact .inr ⟨by simp, quiet_walk h (by simp) (by simp) hs⟩
  | suspend => exact .inr ⟨by simp, quiet_walk h (by simp) (by simp) hs⟩

lemma step_inv {a : Act} (h : Inv s) (hs : step s a = some s') : Inv s' := by
  rcases step_cases h hs with ⟨op, rfl⟩ | ⟨-, hq⟩
  · exact (linked_spec h hs).1
  · exact hq.inv

/-- One step keeps the property exactly if it meets the condition. -/
lemma step_own_iff {a : Act} (h : Inv s) (ho : Own s) (hs : step s a = some s') :
    Own s' ↔ NotLastSlot s a := by
  rcases step_cases h hs with ⟨op, rfl⟩ | ⟨hne, hq⟩
  · obtain ⟨hinv, hlinked, hfree, hlast⟩ := linked_spec h hs
    constructor
    · -- With one slot left no entry carries the token of the new operation.
      intro hown hused
      have hmem : (op, s.tokens) ∈ s'.linked := by
        rw [hlinked]
        exact List.mem_append_right _ (List.mem_singleton_self _)
      have huniq := (hown op s.tokens hmem).unique
      rw [(hlast hused).entries, List.countP_append, h.countP_fresh] at huniq
      simp [carries, Context.timeoutSqe] at huniq
    · intro hused op' t hmem
      obtain ⟨hg, hadj⟩ := hfree hused
      rw [hlinked] at hmem
      rcases List.mem_append.mp hmem with hmem | hmem
      · have hne : s.tokens ≠ t := Nat.ne_of_gt (h.linked _ hmem)
        obtain ⟨hadj', huniq⟩ := (ho op' t hmem).grow hg
          (by simp [carries, LinkedOp.sqe, Context.timeoutSqe, hne])
        exact hinv.own hadj' huniq
      · obtain ⟨rfl, rfl⟩ := Prod.mk.inj (List.mem_singleton.mp hmem)
        refine hinv.own hadj ?_
        rw [hg.entries, List.countP_append, h.countP_fresh]
        simp [carries, LinkedOp.sqe, Context.timeoutSqe]
  · refine ⟨fun _ => ?_, fun _ => hq.own h ho⟩
    cases a with
    | linked op => exact absurd rfl (hne op)
    | _ => trivial

/-- **An operation with a linked timeout gets its own completion** throughout a run of a new
context exactly if none is started while one slot of the submission queue is left: then, and
only then, its entries are handed over side by side and the first with the token of the awaiting
coroutine, which is resumed once for the completion of that entry. -/
theorem own_iff_not_lastSlot (k : Fin 32) (capacity : ℕ) (hcap : 2 ≤ capacity) (as : List Act) :
    machine.Always Own (start k capacity) as ↔ machine.Each NotLastSlot (start k capacity) as :=
  machine.always_iff_each (fun _ _ _ => step_inv) (fun _ _ _ h _ ho hs => step_own_iff h ho hs)
    as _ (inv_start hcap) (fun _ _ h => by cases h)
    (machine.each_of_forall (fun _ _ => trivial) _ _)

/-- Two slots, both free: the operation is handed over with its timeout, and its coroutine is
resumed by its own completion, here `-125` for a receive that was cancelled by the timeout. -/
theorem own_iff_not_lastSlot_two_slots :
    machine.Always Own (start 1 2) [.linked .recvSome, .submit, .complete 1 (-62) 0,
      .complete 0 (-125) 0, .enter, .next, .next, .resolve, .suspend, .next] ∧
    ((machine.run (start 1 2) [.linked .recvSome, .submit, .complete 1 (-62) 0,
      .complete 0 (-125) 0, .enter, .next, .next, .resolve, .suspend, .next]).map
        fun s => s.walk.resolves) = some [(0, -125, 0)] :=
  ⟨(own_iff_not_lastSlot 1 2 (by decide) _).mpr (by decide +kernel), by decide +kernel⟩

/-- Two slots, one of them taken: all three entries are handed over and completed, the walk has
passed all completions, and the awaiting coroutine has not been resumed. -/
theorem never_resumed_from_last_slot :
    (∃ s, machine.run (start 2 2) [.detached .other, .linked .recvSome, .submit,
        .complete 0 0 0, .complete 1 64 0, .complete 2 (-62) 0, .enter, .next, .next, .next,
        .next] = some s ∧
      s.walk.ctx.handed.length = 3 ∧ s.completed = [0, 1, 2] ∧ s.walk.passed = 3 ∧
      s.resumed 0 = 0) ∧
    ¬ machine.Always Own (start 2 2) [.detached .other, .linked .recvSome] := by
  constructor
  · have hrun : (machine.run (start 2 2) [.detached .other, .linked .recvSome, .submit,
        .complete 0 0 0, .complete 1 64 0, .complete 2 (-62) 0, .enter, .next, .next, .next,
        .next]).map (fun s => (s.walk.ctx.handed.length, s.completed, s.walk.passed, s.resumed 0))
        = some (3, [0, 1, 2], 3, 0) := by decide +kernel
    obtain ⟨s, hs, heq⟩ := Option.map_eq_some_iff.mp hrun
    simp only [Prod.mk.injEq] at heq
    exact ⟨s, hs, heq⟩
  · intro halways
    have hcount : (machine.run (start 2 2) [.detached .other, .linked .recvSome]).map
        (fun s => (s.linked, s.walk.ctx.entries.countP (carries 0)))
        = some ([(.recvSome, 0)], 0) := by decide +kernel
    obtain ⟨s, hs, heq⟩ := Option.map_eq_some_iff.mp hcount
    obtain ⟨hlinked, hzero⟩ := Prod.mk.inj heq
    have hown : Own s := machine.always_run halways hs
    have huniq := (hown .recvSome 0 (by rw [hlinked]; exact List.mem_singleton_self _)).unique
    rw [hzero] at huniq
    cases huniq

end System

end Coring.Uring
