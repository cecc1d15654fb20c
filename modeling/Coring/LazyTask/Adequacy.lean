import Coring.LazyTask.Simulation

/-!
# Awaiting a lazy task is calling it

The coroutines of `LazyTask.Basic` behave like the program of `LazyTask.Semantics`: a run of the
machine from its start to the end of the root makes the same I/O operations, in the same order, and
ends with the same result (`outcome_iff_evals`).  The two directions are two inductions.  A run is
followed step by step, and what is still to be done on the stack only gets shorter; a derivation of
`Evals` is followed rule by rule, and each rule is a step of the machine or two.

On the way nothing goes wrong.  Whatever results the operations have, the root comes to its end, no
state of a run is stuck before, and then every frame has been destroyed, each of them once
(`frames_destroyed_once`, `root_ends`).
-/

namespace Coring.LazyTask

open AsyncTask (Result)

variable {α ε ω : Type}

/-! ## What is still to be done -/

/-- A result is given to the stack, and the coroutines on it go on to the end of the root. -/
inductive Unwinds : List (Waiting α ε ω) → Result α ε → List (ω × ℤ) → Result α ε → Prop
  | root (r : Result α ε) : Unwinds [] r [] r
  | waiting {w : Waiting α ε ω} {rest : List (Waiting α ε ω)} {r r' r'' : Result α ε}
      {io io' : List (ω × ℤ)}
      (hbody : Evals (w.k r) (w.slots.set w.index (.done r)) io r')
      (hrest : Unwinds rest r' io' r'') : Unwinds (w :: rest) r (io ++ io') r''

/-- Where a run is. -/
inductive Config (α ε ω : Type)
  | running (t : ℕ) (body : Body α ε ω) (slots : List (Slot α ε ω))
      (stack : List (Waiting α ε ω))
  | blocked (t : ℕ) (op : ω) (k : ℤ → Body α ε ω) (slots : List (Slot α ε ω))
      (stack : List (Waiting α ε ω))
  | ended (r : Result α ε)

namespace Config

/-- The state is there. -/
def At (s : State α ε ω) : Config α ε ω → Prop
  | running t body slots stack => Running s t body slots stack
  | blocked t op k slots stack => Blocked s t op k slots stack
  | ended r => Ended s r

/-- What is still to be done there. -/
def Denotes : Config α ε ω → List (ω × ℤ) → Result α ε → Prop
  | running _ body slots stack, io, r =>
      ∃ io₁ io₂ r', io = io₁ ++ io₂ ∧ Evals body slots io₁ r' ∧ Unwinds stack r' io₂ r
  | blocked _ op k slots stack, io, r =>
      ∃ res io₁ io₂ r', io = (op, res) :: (io₁ ++ io₂) ∧ Evals (k res) slots io₁ r' ∧
        Unwinds stack r' io₂ r
  | ended r', io, r => io = [] ∧ r = r'

/-- The place of a stack that has been given a result. -/
def returned (r : Result α ε) : List (Waiting α ε ω) → Config α ε ω
  | [] => ended r
  | w :: rest => running w.id (w.k r) (w.slots.set w.index (.done r)) rest

lemma returned_at {s : State α ε ω} {r : Result α ε} {stack : List (Waiting α ε ω)}
    (h : Returned s r stack) : (returned r stack).At s := by
  cases stack with
  | nil => exact h
  | cons w rest => exact h

lemma unwinds_of_returned {r r' : Result α ε} {stack : List (Waiting α ε ω)}
    {io : List (ω × ℤ)} (h : (returned r stack).Denotes io r') : Unwinds stack r io r' := by
  cases stack with
  | nil =>
    obtain ⟨rfl, rfl⟩ := h
    exact .root r'
  | cons w rest =>
    obtain ⟨io₁, io₂, r'', rfl, hbody, hrest⟩ := h
    exact .waiting hbody hrest

end Config

lemma start_at (body : Body α ε ω) : (Config.running 0 body [] []).At (start body) := by
  have hself : (start body).frame 0 = ⟨.running body, [], none, none⟩ := by
    simp [start]
  refine ⟨rfl, by rw [hself], rfl, ⟨?_, rfl, ?_, by rintro c ⟨⟩, ?_⟩⟩
  · rw [hself]
    exact ⟨rfl, by simp⟩
  · rw [List.map_nil, owned_cons, owned_nil, hself]
    exact List.Perm.refl _
  · intro c hc
    have hne : c ≠ 0 := Nat.ne_of_gt hc
    simp [start, hne]

/-! ## Following a run -/

/-- A step leaves less to be done: what it has done itself comes first. -/
lemma denotes_of_step {s s' : State α ε ω} {c : Config α ε ω} {a : Action} (h : c.At s)
    (hstep : step s a = some s') : ∃ c' io, c'.At s' ∧ s'.trace = s.trace ++ io ∧
      ∀ io' r, Config.Denotes c' io' r → Config.Denotes c (io ++ io') r := by
  cases c with
  | running t body slots stack =>
    have h : Running s t body slots stack := h
    cases a with
    | complete u res =>
      simp only [step, h.current] at hstep
      cases hstep
    | exec =>
      -- With one construct of the body gone, the rest is a body again, or a result.
      have hbody {s₁ : State α ε ω} {body' : Body α ε ω} {slots' : List (Slot α ε ω)}
          (hs₁ : step s .exec = some s₁) (htrace : s₁.trace = s.trace)
          (hat : Running s₁ t body' slots' stack)
          (hevals : ∀ io r, Evals body' slots' io r → Evals body slots io r) :
          ∃ c' io, c'.At s' ∧ s'.trace = s.trace ++ io ∧
            ∀ io' r, Config.Denotes c' io' r →
              Config.Denotes (.running t body slots stack) (io ++ io') r := by
        rw [hstep, Option.some_inj] at hs₁
        subst hs₁
        refine ⟨.running t body' slots' stack, [], hat, by rw [htrace, List.append_nil], ?_⟩
        rintro io' r ⟨io₁, io₂, r', rfl, hb, hu⟩
        exact ⟨io₁, io₂, r', rfl, hevals io₁ r' hb, hu⟩
      have hend {r₀ : Result α ε} (heq : step s .exec = s.finish t r₀)
          (hevals : Evals body slots [] r₀) :
          ∃ c' io, c'.At s' ∧ s'.trace = s.trace ++ io ∧
            ∀ io' r, Config.Denotes c' io' r →
              Config.Denotes (.running t body slots stack) (io ++ io') r := by
        obtain ⟨s₁, hs₁, htrace, hreturned⟩ := h.finish (r := r₀)
        rw [heq, hs₁, Option.some_inj] at hstep
        subst hstep
        refine ⟨.returned r₀ stack, [], Config.returned_at hreturned,
          by rw [htrace, List.append_nil], fun io' r hd => ?_⟩
        exact ⟨[], io', r₀, rfl, hevals, Config.unwinds_of_returned hd⟩
      cases body with
      | coReturn v => exact hend h.step_eq (.coReturn v slots)
      | throw e => exact hend h.step_eq (.throw e slots)
      | create child k =>
        obtain ⟨hs₁, hat⟩ := h.create
        exact hbody hs₁ rfl hat fun _ _ => .create
      | createEmpty k =>
        obtain ⟨hs₁, hat⟩ := h.createEmpty
        exact hbody hs₁ rfl hat fun _ _ => .createEmpty
      | assign i j k =>
        obtain ⟨s₁, hs₁, htrace, hat⟩ := h.assign
        exact hbody hs₁ htrace hat fun _ _ => .assign
      | isReady i k =>
        obtain ⟨s₁, hs₁, htrace, hat⟩ := h.isReady
        exact hbody hs₁ htrace hat fun _ _ => .isReady
      | awaitIo op k =>
        obtain ⟨s₁, hs₁, htrace, hat⟩ := h.awaitIo
        rw [hstep, Option.some_inj] at hs₁
        subst hs₁
        refine ⟨.blocked t op k slots stack, [], hat, by rw [htrace, List.append_nil], ?_⟩
        rintro io' r ⟨res, io₁, io₂, r', rfl, hb, hu⟩
        exact ⟨(op, res) :: io₁, io₂, r', rfl, .awaitIo hb, hu⟩
      | awaitTask i k =>
        cases hi : slotAt slots i with
        | empty =>
          obtain ⟨s₁, hs₁, htrace, hat⟩ := h.awaitReady (.inl ⟨hi, rfl⟩)
          exact hbody hs₁ htrace hat fun _ _ => .awaitEmpty hi
        | done r₀ =>
          obtain ⟨s₁, hs₁, htrace, hat⟩ := h.awaitReady (.inr hi)
          exact hbody hs₁ htrace hat fun _ _ => .awaitDone hi
        | lazy child =>
          obtain ⟨s₁, c, hs₁, htrace, hat⟩ := h.awaitLazy hi
          rw [hstep, Option.some_inj] at hs₁
          subst hs₁
          refine ⟨.running c child [] (⟨t, slots, i, k⟩ :: stack), [], hat,
            by rw [htrace, List.append_nil], ?_⟩
          rintro io' r ⟨io₁, io₂, r', rfl, hb, hu⟩
          cases hu with
          | @waiting _ _ _ r'' _ io₃ io₄ hbody' hrest =>
            exact ⟨io₁ ++ io₃, io₄, r'', by simp, .awaitLazy hi hb hbody', hrest⟩
  | blocked t op k slots stack =>
    have h : Blocked s t op k slots stack := h
    cases a with
    | exec =>
      simp only [step, State.exec, h.current] at hstep
      cases hstep
    | complete u res =>
      -- The completion can only be that of the operation which is awaited.
      have hu : u = t := by
        simp only [step, h.current] at hstep
        split at hstep
        · next op' k' _ hpc => exact h.rep.awaitingIo_unique hpc
        · cases hstep
      subst hu
      obtain ⟨s₁, hs₁, htrace, hat⟩ := h.complete res
      rw [hstep, Option.some_inj] at hs₁
      subst hs₁
      refine ⟨.running u (k res) slots stack, [(op, res)], hat, htrace, ?_⟩
      rintro io' r ⟨io₁, io₂, r', rfl, hb, hun⟩
      exact ⟨res, io₁, io₂, r', rfl, hb, hun⟩
  | ended r =>
    have h : Ended s r := h
    cases a with
    | exec =>
      simp only [step, State.exec, h.current] at hstep
      cases hstep
    | complete u res =>
      simp only [step, h.current, h.gone u] at hstep
      cases hstep

lemma denotes_of_run {as : List Action} {s s' : State α ε ω} {c : Config α ε ω} (h : c.At s)
    (hrun : machine.run s as = some s') : ∃ c' io, c'.At s' ∧ s'.trace = s.trace ++ io ∧
      ∀ io' r, Config.Denotes c' io' r → Config.Denotes c (io ++ io') r := by
  induction as generalizing s c with
  | nil =>
    rw [Machine.run_nil, Option.some_inj] at hrun
    subst hrun
    exact ⟨c, [], h, by rw [List.append_nil], fun _ _ hd => hd⟩
  | cons a as ih =>
    obtain ⟨s₁, hs₁, hrun⟩ := machine.run_cons_eq_some.mp hrun
    obtain ⟨c₁, io₁, hat₁, htrace₁, hden₁⟩ := denotes_of_step h hs₁
    obtain ⟨c', io, hat, htrace, hden⟩ := ih hat₁ hrun
    refine ⟨c', io₁ ++ io, hat, by rw [htrace, htrace₁, List.append_assoc], fun io' r hd => ?_⟩
    rw [List.append_assoc]
    exact hden₁ _ _ (hden _ _ hd)

/-! ## Following a derivation -/

/-- The body runs to its end and gives its result to the stack. -/
lemma evals_complete {body : Body α ε ω} {slots : List (Slot α ε ω)} {io : List (ω × ℤ)}
    {r : Result α ε} (h : Evals body slots io r) {s : State α ε ω} {t : ℕ}
    {stack : List (Waiting α ε ω)} (hat : Running s t body slots stack) :
    ∃ as s', machine.run s as = some s' ∧ s'.trace = s.trace ++ io ∧ Returned s' r stack := by
  induction h generalizing s t stack with
  | coReturn v slots =>
    obtain ⟨s', hs', htrace, hreturned⟩ := hat.finish (r := .ok v)
    exact ⟨[.exec], s', machine.run_cons_eq_some.mpr ⟨s', hat.step_eq.trans hs', rfl⟩,
      by rw [htrace, List.append_nil], hreturned⟩
  | throw e slots =>
    obtain ⟨s', hs', htrace, hreturned⟩ := hat.finish (r := .error e)
    exact ⟨[.exec], s', machine.run_cons_eq_some.mpr ⟨s', hat.step_eq.trans hs', rfl⟩,
      by rw [htrace, List.append_nil], hreturned⟩
  | create _ ih =>
    obtain ⟨hs₁, hat₁⟩ := hat.create
    obtain ⟨as, s', hrun, htrace, hreturned⟩ := ih hat₁
    exact ⟨.exec :: as, s', machine.run_cons_eq_some.mpr ⟨_, hs₁, hrun⟩, htrace, hreturned⟩
  | createEmpty _ ih =>
    obtain ⟨hs₁, hat₁⟩ := hat.createEmpty
    obtain ⟨as, s', hrun, htrace, hreturned⟩ := ih hat₁
    exact ⟨.exec :: as, s', machine.run_cons_eq_some.mpr ⟨_, hs₁, hrun⟩, htrace, hreturned⟩
  | assign _ ih =>
    obtain ⟨s₁, hs₁, htrace₁, hat₁⟩ := hat.assign
    obtain ⟨as, s', hrun, htrace, hreturned⟩ := ih hat₁
    exact ⟨.exec :: as, s', machine.run_cons_eq_some.mpr ⟨_, hs₁, hrun⟩,
      by rw [htrace, htrace₁], hreturned⟩
  | isReady _ ih =>
    obtain ⟨s₁, hs₁, htrace₁, hat₁⟩ := hat.isReady
    obtain ⟨as, s', hrun, htrace, hreturned⟩ := ih hat₁
    exact ⟨.exec :: as, s', machine.run_cons_eq_some.mpr ⟨_, hs₁, hrun⟩,
      by rw [htrace, htrace₁], hreturned⟩
  | @awaitIo op res k slots io r _ ih =>
    obtain ⟨s₁, hs₁, htrace₁, hat₁⟩ := hat.awaitIo
    obtain ⟨s₂, hs₂, htrace₂, hat₂⟩ := hat₁.complete res
    obtain ⟨as, s', hrun, htrace, hreturned⟩ := ih hat₂
    refine ⟨.exec :: .complete t res :: as, s', machine.run_cons_eq_some.mpr ⟨_, hs₁,
      machine.run_cons_eq_some.mpr ⟨_, hs₂, hrun⟩⟩, ?_, hreturned⟩
    rw [htrace, htrace₂, htrace₁, List.append_assoc, List.singleton_append]
  | awaitEmpty hi _ ih =>
    obtain ⟨s₁, hs₁, htrace₁, hat₁⟩ := hat.awaitReady (.inl ⟨hi, rfl⟩)
    obtain ⟨as, s', hrun, htrace, hreturned⟩ := ih hat₁
    exact ⟨.exec :: as, s', machine.run_cons_eq_some.mpr ⟨_, hs₁, hrun⟩,
      by rw [htrace, htrace₁], hreturned⟩
  | awaitDone hi _ ih =>
    obtain ⟨s₁, hs₁, htrace₁, hat₁⟩ := hat.awaitReady (.inr hi)
    obtain ⟨as, s', hrun, htrace, hreturned⟩ := ih hat₁
    exact ⟨.exec :: as, s', machine.run_cons_eq_some.mpr ⟨_, hs₁, hrun⟩,
      by rw [htrace, htrace₁], hreturned⟩
  | awaitLazy hi _ _ ihchild ih =>
    obtain ⟨s₁, c, hs₁, htrace₁, hat₁⟩ := hat.awaitLazy hi
    obtain ⟨as₁, s₂, hrun₁, htrace₂, hat₂⟩ := ihchild hat₁
    obtain ⟨as₂, s', hrun₂, htrace, hreturned⟩ := ih hat₂
    refine ⟨.exec :: (as₁ ++ as₂), s', machine.run_cons_eq_some.mpr ⟨_, hs₁, ?_⟩, ?_, hreturned⟩
    · rw [Machine.run_append, hrun₁, Option.bind_some, hrun₂]
    · rw [htrace, htrace₂, htrace₁, List.append_assoc]

/-- **Awaiting a lazy task is calling it.**  A program of coroutines can come to its end with the
I/O operations `io` and the result `r` exactly when the program without coroutines does: every task
is run at most once, when it is first awaited, all of it before the awaiting coroutine goes on, and
each await gives what the task has ended with, value or exception. -/
theorem outcome_iff_evals (body : Body α ε ω) (io : List (ω × ℤ)) (r : Result α ε) :
    (∃ as s, machine.run (start body) as = some s ∧ s.outcome = some r ∧ s.trace = io) ↔
      Evals body [] io r := by
  constructor
  · rintro ⟨as, s, hrun, houtcome, rfl⟩
    obtain ⟨c', io, hat, htrace, hden⟩ := denotes_of_run (start_at body) hrun
    cases c' with
    | running t body' slots stack =>
      rw [Running.outcome hat] at houtcome
      cases houtcome
    | blocked t op k slots stack =>
      rw [Blocked.outcome hat] at houtcome
      cases houtcome
    | ended r' =>
      rw [Ended.outcome hat, Option.some_inj] at houtcome
      subst houtcome
      obtain ⟨io₁, io₂, r'', heq, hbody, hunwinds⟩ := hden [] r' ⟨rfl, rfl⟩
      cases hunwinds
      rw [List.append_nil, List.append_nil] at heq
      rw [htrace, heq]
      exact hbody
  · intro h
    obtain ⟨as, s, hrun, htrace, hended⟩ := evals_complete h (start_at body)
    exact ⟨as, s, hrun, Ended.outcome hended, htrace⟩

/-! ## Runs come to their end -/

/-- Every I/O operation has the result that is chosen for it, by what has gone before. -/
def Chosen (choose : List (ω × ℤ) → ω → ℤ) : List (ω × ℤ) → List (ω × ℤ) → Prop
  | _, [] => True
  | before, (op, res) :: io => res = choose before op ∧ Chosen choose (before ++ [(op, res)]) io

lemma Chosen.append {choose : List (ω × ℤ) → ω → ℤ} {before io io' : List (ω × ℤ)}
    (h : Chosen choose before io) (h' : Chosen choose (before ++ io) io') :
    Chosen choose before (io ++ io') := by
  induction io generalizing before with
  | nil => simpa using h'
  | cons x io ih =>
    obtain ⟨hres, h⟩ := h
    exact ⟨hres, ih h (by simpa using h')⟩

/-- The body comes to its end with every choice of results. -/
def Ends (choose : List (ω × ℤ) → ω → ℤ) (body : Body α ε ω) (slots : List (Slot α ε ω)) : Prop :=
  ∀ before, ∃ io r, Evals body slots io r ∧ Chosen choose before io

/-- So do the tasks that have not been called yet. -/
def AllEnd (choose : List (ω × ℤ) → ω → ℤ) (slots : List (Slot α ε ω)) : Prop :=
  ∀ body, .lazy body ∈ slots → Ends choose body []

lemma AllEnd.set {choose : List (ω × ℤ) → ω → ℤ} {slots : List (Slot α ε ω)}
    (h : AllEnd choose slots) {i : ℕ} {sl : Slot α ε ω}
    (hsl : ∀ body, sl = .lazy body → Ends choose body []) : AllEnd choose (slots.set i sl) := by
  intro body hmem
  rcases List.mem_or_eq_of_mem_set hmem with hmem | heq
  · exact h body hmem
  · exact hsl body heq.symm

lemma AllEnd.slotAt {choose : List (ω × ℤ) → ω → ℤ} {slots : List (Slot α ε ω)}
    (h : AllEnd choose slots) {i : ℕ} {body : Body α ε ω} (hi : slotAt slots i = .lazy body) :
    Ends choose body [] := by
  refine h body ?_
  rw [LazyTask.slotAt] at hi
  cases hget : slots[i]? with
  | none =>
    rw [hget] at hi
    cases hi
  | some sl =>
    rw [hget, Option.getD_some] at hi
    exact hi ▸ List.mem_of_getElem? hget

/-- A body is a finite tree, and a task that is called is one of its subtrees. -/
lemma ends (choose : List (ω × ℤ) → ω → ℤ) (body : Body α ε ω) {slots : List (Slot α ε ω)}
    (h : AllEnd choose slots) : Ends choose body slots := by
  induction body generalizing slots with
  | coReturn v => exact fun before => ⟨[], _, .coReturn v slots, trivial⟩
  | throw e => exact fun before => ⟨[], _, .throw e slots, trivial⟩
  | create child k ihchild ih =>
    intro before
    have hslots : AllEnd choose (slots ++ [.lazy child]) := by
      intro body hmem
      rcases List.mem_append.mp hmem with hmem | hmem
      · exact h body hmem
      · cases List.mem_singleton.mp hmem
        exact ihchild (by rintro body ⟨⟩)
    obtain ⟨io, r, hevals, hchosen⟩ := ih hslots before
    exact ⟨io, r, .create hevals, hchosen⟩
  | createEmpty k ih =>
    intro before
    have hslots : AllEnd choose (slots ++ [.empty]) := by
      intro body hmem
      rcases List.mem_append.mp hmem with hmem | hmem
      · exact h body hmem
      · cases List.mem_singleton.mp hmem
    obtain ⟨io, r, hevals, hchosen⟩ := ih hslots before
    exact ⟨io, r, .createEmpty hevals, hchosen⟩
  | assign i j k ih =>
    intro before
    have hslots : AllEnd choose (assignSlot slots i j) := by
      rw [assignSlot]
      split
      · exact h
      · exact (h.set fun body hbody => h.slotAt hbody).set (by rintro body ⟨⟩)
    obtain ⟨io, r, hevals, hchosen⟩ := ih hslots before
    exact ⟨io, r, .assign hevals, hchosen⟩
  | isReady i k ih =>
    intro before
    obtain ⟨io, r, hevals, hchosen⟩ := ih _ h before
    exact ⟨io, r, .isReady hevals, hchosen⟩
  | awaitIo op k ih =>
    intro before
    obtain ⟨io, r, hevals, hchosen⟩ := ih (choose before op) h (before ++ [(op, choose before op)])
    exact ⟨_, r, .awaitIo hevals, rfl, hchosen⟩
  | awaitTask i k ih =>
    intro before
    cases hi : slotAt slots i with
    | empty =>
      obtain ⟨io, r, hevals, hchosen⟩ := ih _ h before
      exact ⟨io, r, .awaitEmpty hi hevals, hchosen⟩
    | done r' =>
      obtain ⟨io, r, hevals, hchosen⟩ := ih r' h before
      exact ⟨io, r, .awaitDone hi hevals, hchosen⟩
    | lazy child =>
      obtain ⟨io, r', hchild, hchosen⟩ := h.slotAt hi before
      have hslots : AllEnd choose (slots.set i (.done r')) := h.set (by rintro body ⟨⟩)
      obtain ⟨io', r, hevals, hchosen'⟩ := ih r' hslots (before ++ io)
      exact ⟨io ++ io', r, .awaitLazy hi hchild hevals, hchosen.append hchosen'⟩

/-- **The root ends, whatever comes back.**  However the results of the I/O operations are chosen,
also in view of all that has gone before, there is a run to the end of the root with these
results. -/
theorem root_ends (choose : List (ω × ℤ) → ω → ℤ) (body : Body α ε ω) :
    ∃ as s r, machine.run (start body) as = some s ∧ s.outcome = some r ∧
      Chosen choose [] s.trace := by
  have hnone : AllEnd choose ([] : List (Slot α ε ω)) := by rintro body ⟨⟩
  obtain ⟨io, r, hevals, hchosen⟩ := ends choose body hnone []
  obtain ⟨as, s, hrun, houtcome, rfl⟩ := (outcome_iff_evals body io r).mpr hevals
  exact ⟨as, s, r, hrun, houtcome, hchosen⟩

/-! ## Frames -/

lemma Rep.destroyed_nodup {s : State α ε ω} {t : ℕ} {slots : List (Slot α ε ω)}
    {stack : List (Waiting α ε ω)} (h : Rep s t slots stack) : s.destroyed.Nodup :=
  (List.nodup_append.mp (h.accounted.nodup_iff.mpr List.nodup_range)).1

/-- **No frame is destroyed twice, or too early, or never.**  In every state of a run no frame has
been destroyed twice.  Before the end of the root no state is stuck: either a coroutine is running
and its next step exists, or exactly one coroutine awaits an I/O operation, and goes on with
whatever result it has.  A step that would resume a null handle, or use or destroy a frame that is
gone or may be resumed later, does not exist, so there is none.  At the end every frame has been
destroyed, once, and nothing can happen any more. -/
theorem frames_destroyed_once (body : Body α ε ω) (as : List Action) (s : State α ε ω)
    (hrun : machine.run (start body) as = some s) :
    s.destroyed.Nodup ∧
    (s.outcome = none → (s.current.isSome ∧ ∃ s', step s .exec = some s') ∨
      s.current = none ∧ ∃ t, ∀ u res, (∃ s', step s (.complete u res) = some s') ↔ u = t) ∧
    (∀ r, s.outcome = some r → s.destroyed.Perm (List.range s.called) ∧
      ∀ a, step s a = none) := by
  obtain ⟨c, io, hat, -, -⟩ := denotes_of_run (start_at body) hrun
  cases c with
  | running t body' slots stack =>
    have h : Running s t body' slots stack := hat
    refine ⟨h.rep.destroyed_nodup, fun _ => .inl ⟨by rw [h.current]; rfl, ?_⟩, fun r hr => ?_⟩
    · cases body' with
      | coReturn v =>
        obtain ⟨s', hs', -⟩ := h.finish (r := .ok v)
        exact ⟨s', h.step_eq.trans hs'⟩
      | throw e =>
        obtain ⟨s', hs', -⟩ := h.finish (r := .error e)
        exact ⟨s', h.step_eq.trans hs'⟩
      | create child k => exact ⟨_, h.create.1⟩
      | createEmpty k => exact ⟨_, h.createEmpty.1⟩
      | assign i j k => exact h.assign.imp fun _ hs' => hs'.1
      | isReady i k => exact h.isReady.imp fun _ hs' => hs'.1
      | awaitIo op k => exact h.awaitIo.imp fun _ hs' => hs'.1
      | awaitTask i k =>
        cases hi : slotAt slots i with
        | empty => exact (h.awaitReady (.inl ⟨hi, rfl⟩)).imp fun _ hs' => hs'.1
        | done r => exact (h.awaitReady (.inr hi)).imp fun _ hs' => hs'.1
        | lazy child =>
          obtain ⟨s', -, hs', -⟩ := h.awaitLazy hi
          exact ⟨s', hs'⟩
    · rw [h.outcome] at hr
      cases hr
  | blocked t op k slots stack =>
    have h : Blocked s t op k slots stack := hat
    refine ⟨h.rep.destroyed_nodup, fun _ => .inr ⟨h.current, t, fun u res => ?_⟩, fun r hr => ?_⟩
    · constructor
      · rintro ⟨s', hs'⟩
        simp only [step, h.current] at hs'
        split at hs'
        · next op' k' _ hpc => exact h.rep.awaitingIo_unique hpc
        · cases hs'
      · rintro rfl
        obtain ⟨s', hs', -⟩ := h.complete res
        exact ⟨s', hs'⟩
    · rw [h.outcome] at hr
      cases hr
  | ended r =>
    have h : Ended s r := hat
    refine ⟨h.destroyed.nodup_iff.mpr List.nodup_range, fun hnone => ?_, fun r' _ =>
      ⟨h.destroyed, fun a => ?_⟩⟩
    · rw [h.outcome] at hnone
      cases hnone
    · cases a with
      | exec => simp only [step, State.exec, h.current]; rfl
      | complete u res => simp only [step, h.current, h.gone u]

/-- A child is awaited, reads something and throws; its parent catches that, awaits it again, and
moves an empty task into it. -/
def readAndCatch : Body ℕ ℕ ℕ :=
  .create (.awaitIo 3 fun res => .throw (.thrown res.toNat)) <| .awaitTask 0 fun _ =>
    .awaitTask 0 fun r => .createEmpty <| .assign 1 0 <| match r with
      | .error (.thrown e) => .coReturn (e + 1)
      | _ => .coReturn 0

theorem frames_destroyed_once_caught : ∃ s : State ℕ ℕ ℕ,
    machine.run (start readAndCatch)
      [.exec, .exec, .exec, .complete 1 7, .exec, .exec, .exec, .exec, .exec] = some s ∧
      s.outcome = some (.ok 8) ∧ s.destroyed = [1, 0] ∧ s.destroyed.Nodup :=
  ⟨_, rfl, rfl, rfl, (frames_destroyed_once readAndCatch
    [.exec, .exec, .exec, .complete 1 7, .exec, .exec, .exec, .exec, .exec] _ rfl).1⟩

end Coring.LazyTask
