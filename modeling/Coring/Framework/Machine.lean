import Mathlib.Logic.Relation
import Mathlib.Data.List.Basic

/-!
# Labelled machines and their runs

A component whose behaviour is a sequence of steps is presented as a `Machine`: a partial
step function over a state type and an action type.  An action that is not permitted in a
state has no step there, so a run is a list of actions read from left to right and it stops
at the first action that is refused.

Three predicates over a run are enough for the developments built on this file.  `run` is
the state a list of actions leads to; `Always P` says that `P` holds in the first state and
in every state the list passes through; `Each C` says that every step taken met the
condition `C` in the state it was taken from.  `run_invariant` is the induction every safety
argument uses.  `always_iff_each` is its exact form for a property that one condition on the
steps decides: along a run the property always holds if and only if every step met the
condition.

`collect` is the functional counterpart, for an object whose operations return results, and
`collect_refines` is its refinement rule: operations that answer as an abstract object does,
and keep a relation to it, answer so over a whole list of operations.
-/

namespace Coring

/-- A machine: on an action the step is either not permitted (`none`) or gives the next
state. -/
structure Machine (σ α : Type*) where
  step : σ → α → Option σ

/-! ## Results that are related -/

section Rel

variable {α β γ δ : Type*} {R : α → β → Prop} {S : γ → δ → Prop} {o : Option α} {o' : Option β}

lemma rel_bind {f : α → Option γ} {g : β → Option δ} (h : Option.Rel R o o')
    (hf : ∀ a b, R a b → Option.Rel S (f a) (g b)) : Option.Rel S (o.bind f) (o'.bind g) := by
  cases h with
  | some h => exact hf _ _ h
  | none => exact .none

lemma rel_map {f : α → γ} {g : β → δ} (h : Option.Rel R o o')
    (hf : ∀ a b, R a b → S (f a) (g b)) : Option.Rel S (o.map f) (o'.map g) := by
  cases h with
  | some h => exact .some (hf _ _ h)
  | none => exact .none

lemma map_eq_map_of_rel {f : α → γ} {g : β → γ} (h : Option.Rel R o o')
    (hf : ∀ a b, R a b → f a = g b) : o.map f = o'.map g := by
  cases h with
  | some h => exact congrArg some (hf _ _ h)
  | none => rfl

end Rel

namespace Machine

variable {σ α : Type*} (M : Machine σ α)

/-- The state the actions lead to, if each of them is permitted in its turn. -/
def run : σ → List α → Option σ
  | s, [] => some s
  | s, a :: as => (M.step s a).bind fun s' => run s' as

/-- `P` holds in `s` and in every state reached while the actions are taken in turn. -/
def Always (P : σ → Prop) : σ → List α → Prop
  | s, [] => P s
  | s, a :: as => P s ∧ ∀ s', M.step s a = some s' → Always P s' as

/-- Every step taken while the actions are taken in turn meets `C` in the state it is taken
from. -/
def Each (C : σ → α → Prop) : σ → List α → Prop
  | _, [] => True
  | s, a :: as => ∀ s', M.step s a = some s' → C s a ∧ Each C s' as

/-- `s` is reached from `s₀` by some list of actions. -/
def Reachable (s₀ s : σ) : Prop := ∃ as, M.run s₀ as = some s

@[simp] lemma run_nil (s : σ) : M.run s [] = some s := rfl

lemma run_cons (s : σ) (a : α) (as : List α) :
    M.run s (a :: as) = (M.step s a).bind fun s' => M.run s' as := rfl

lemma run_cons_eq_some {s s' : σ} {a : α} {as : List α} :
    M.run s (a :: as) = some s' ↔ ∃ t, M.step s a = some t ∧ M.run t as = some s' := by
  rw [run_cons, Option.bind_eq_some_iff]

lemma run_append (s : σ) (as bs : List α) :
    M.run s (as ++ bs) = (M.run s as).bind fun s' => M.run s' bs := by
  induction as generalizing s with
  | nil => rfl
  | cons a as ih =>
    rw [List.cons_append, run_cons, run_cons, Option.bind_assoc]
    simp only [ih]

lemma each_cons_none {C : σ → α → Prop} {s : σ} {a : α} {as : List α}
    (h : M.step s a = none) : M.Each C s (a :: as) := fun s' hs' => by
  rw [h] at hs'
  cases hs'

lemma each_cons_some {C : σ → α → Prop} {s t : σ} {a : α} {as : List α}
    (h : M.step s a = some t) : M.Each C s (a :: as) ↔ C s a ∧ M.Each C t as := by
  simp only [Each, h, Option.some_inj, forall_eq']

/-- A decidable condition can be evaluated along a run. -/
instance decidableEach (C : σ → α → Prop) [∀ s a, Decidable (C s a)] :
    ∀ (s : σ) (as : List α), Decidable (M.Each C s as)
  | _, [] => isTrue trivial
  | s, a :: as =>
      match h : M.step s a with
      | none => isTrue (M.each_cons_none h)
      | some t =>
          have := decidableEach C t as
          decidable_of_iff _ (M.each_cons_some h).symm

lemma always_cons_none {P : σ → Prop} {s : σ} {a : α} {as : List α}
    (h : M.step s a = none) : M.Always P s (a :: as) ↔ P s := by
  simp [Always, h]

lemma always_cons_some {P : σ → Prop} {s t : σ} {a : α} {as : List α}
    (h : M.step s a = some t) : M.Always P s (a :: as) ↔ P s ∧ M.Always P t as := by
  simp only [Always, h, Option.some_inj, forall_eq']

/-- So can a decidable property. -/
instance decidableAlways (P : σ → Prop) [∀ s, Decidable (P s)] :
    ∀ (s : σ) (as : List α), Decidable (M.Always P s as)
  | s, [] => inferInstanceAs (Decidable (P s))
  | s, a :: as =>
      match h : M.step s a with
      | none => decidable_of_iff _ (M.always_cons_none h).symm
      | some t =>
          have := decidableAlways P t as
          decidable_of_iff _ (M.always_cons_some h).symm

/-! ## Invariants along a run -/

/-- What one step preserves, a run preserves. -/
theorem run_invariant {P : σ → Prop}
    (hstep : ∀ s a s', P s → M.step s a = some s' → P s') {as : List α} {s s' : σ}
    (hs : P s) (hrun : M.run s as = some s') : P s' := by
  induction as generalizing s with
  | nil =>
    rw [run_nil, Option.some_inj] at hrun
    exact hrun ▸ hs
  | cons a as ih =>
    obtain ⟨t, ht, hrun⟩ := M.run_cons_eq_some.mp hrun
    exact ih (hstep s a t hs ht) hrun

/-- The same, for the states reached from one initial state. -/
theorem Reachable.invariant {P : σ → Prop} {s₀ s : σ} (h : M.Reachable s₀ s)
    (h₀ : P s₀) (hstep : ∀ s a s', P s → M.step s a = some s' → P s') : P s := by
  obtain ⟨as, has⟩ := h
  exact M.run_invariant hstep h₀ has

lemma Reachable.run {s₀ s s' : σ} {as : List α} (h : M.Reachable s₀ s)
    (hrun : M.run s as = some s') : M.Reachable s₀ s' := by
  obtain ⟨bs, hbs⟩ := h
  exact ⟨bs ++ as, by rw [run_append, hbs, Option.bind_some, hrun]⟩

lemma Reachable.step {s₀ s s' : σ} {a : α} (h : M.Reachable s₀ s) (hs : M.step s a = some s') :
    M.Reachable s₀ s' :=
  h.run M (M.run_cons_eq_some.mpr ⟨s', hs, M.run_nil s'⟩)

/-- If permitted actions succeed and keep `P`, then a list of permitted actions succeeds and
leads to a state with `P`. -/
theorem run_succeeds {P : σ → Prop} {C : α → Prop}
    (hstep : ∀ s a, P s → C a → ∃ s', M.step s a = some s' ∧ P s') {as : List α} {s : σ}
    (hs : P s) (hC : ∀ a ∈ as, C a) : ∃ s', M.run s as = some s' ∧ P s' := by
  induction as generalizing s with
  | nil => exact ⟨s, rfl, hs⟩
  | cons a as ih =>
    obtain ⟨t, ht, hPt⟩ := hstep s a hs (hC a (List.mem_cons_self ..))
    obtain ⟨s', hs', hP'⟩ := ih hPt fun b hb => hC b (List.mem_cons_of_mem _ hb)
    exact ⟨s', M.run_cons_eq_some.mpr ⟨t, ht, hs'⟩, hP'⟩

/-- What holds of every step holds of the steps of a run. -/
lemma each_of_forall {C : σ → α → Prop} (h : ∀ s a, C s a) (s : σ) (as : List α) :
    M.Each C s as := by
  induction as generalizing s with
  | nil => trivial
  | cons a as ih => exact fun s' _ => ⟨h s a, ih s'⟩

/-- What every action of a kind meets in a state with `I`, and keeps `I`, the steps of a run of such
actions meet. -/
lemma each_of_invariant {I : σ → Prop} {C : σ → α → Prop} {A : α → Prop}
    (hstep : ∀ s a s', I s → A a → M.step s a = some s' → C s a ∧ I s') {as : List α} {s : σ}
    (hs : I s) (hA : ∀ a ∈ as, A a) : M.Each C s as := by
  induction as generalizing s with
  | nil => trivial
  | cons a as ih =>
    intro s' hs'
    obtain ⟨hC, hI⟩ := hstep s a s' hs (hA a (List.mem_cons_self ..)) hs'
    exact ⟨hC, ih hI fun b hb => hA b (List.mem_cons_of_mem _ hb)⟩

lemma each_and {C D : σ → α → Prop} {as : List α} {s : σ} :
    M.Each (fun s a => C s a ∧ D s a) s as ↔ M.Each C s as ∧ M.Each D s as := by
  induction as generalizing s with
  | nil => simp only [Each, and_self]
  | cons a as ih =>
    simp only [Each, ih]
    constructor
    · intro h
      exact ⟨fun s' hs' => ⟨(h s' hs').1.1, (h s' hs').2.1⟩,
        fun s' hs' => ⟨(h s' hs').1.2, (h s' hs').2.2⟩⟩
    · rintro ⟨hC, hD⟩ s' hs'
      exact ⟨⟨(hC s' hs').1, (hD s' hs').1⟩, (hC s' hs').2, (hD s' hs').2⟩

/-- A step taken along the run is one of those the condition speaks about. -/
lemma Each.at_step {C : σ → α → Prop} {s t t' : σ} {a : α} {as bs : List α}
    (h : M.Each C s (as ++ a :: bs)) (hrun : M.run s as = some t) (hstep : M.step t a = some t') :
    C t a := by
  induction as generalizing s with
  | nil =>
    rw [run_nil, Option.some_inj] at hrun
    subst hrun
    exact (h t' hstep).1
  | cons b as ih =>
    obtain ⟨u, hu, hrun⟩ := M.run_cons_eq_some.mp hrun
    exact ih (h u hu).2 hrun

lemma Always.head {P : σ → Prop} {s : σ} {as : List α} (h : M.Always P s as) : P s := by
  cases as with
  | nil => exact h
  | cons a as => exact h.1

lemma always_mono {P Q : σ → Prop} (h : ∀ s, P s → Q s) {as : List α} {s : σ}
    (hP : M.Always P s as) : M.Always Q s as := by
  induction as generalizing s with
  | nil => exact h s hP
  | cons a as ih => exact ⟨h s hP.1, fun s' hs' => ih (hP.2 s' hs')⟩

/-- What always holds along a run holds in the state it leads to. -/
lemma always_run {P : σ → Prop} {as : List α} {s s' : σ} (h : M.Always P s as)
    (hrun : M.run s as = some s') : P s' := by
  induction as generalizing s with
  | nil =>
    rw [run_nil, Option.some_inj] at hrun
    exact hrun ▸ h
  | cons a as ih =>
    obtain ⟨t, ht, hrun⟩ := M.run_cons_eq_some.mp hrun
    exact ih (h.2 t ht) hrun

/-- What every step that meets `C` preserves holds along a run whose steps all meet `C`. -/
theorem always_of_each {P : σ → Prop} {C : σ → α → Prop}
    (hstep : ∀ s a s', P s → C s a → M.step s a = some s' → P s') {as : List α} {s : σ}
    (hs : P s) (hC : M.Each C s as) : M.Always P s as := by
  induction as generalizing s with
  | nil => exact hs
  | cons a as ih =>
    refine ⟨hs, fun t ht => ?_⟩
    obtain ⟨hCa, hCas⟩ := hC t ht
    exact ih (hstep s a t hs hCa ht) hCas

/-- The same for a property of a state and the actions that have led to it. -/
theorem run_history {P : List α → σ → Prop} {C : σ → α → Prop}
    (hstep : ∀ as s a s', P as s → C s a → M.step s a = some s' → P (as ++ [a]) s')
    {as : List α} {s s' : σ} (hs : P [] s) (hC : M.Each C s as) (hrun : M.run s as = some s') :
    P as s' := by
  -- The actions taken so far go before those still to be taken.
  have hfrom : ∀ (as taken : List α) (s : σ), P taken s → M.Each C s as →
      M.run s as = some s' → P (taken ++ as) s' := by
    intro as
    induction as with
    | nil =>
      intro taken s hs _ hrun
      rw [run_nil, Option.some_inj] at hrun
      rw [List.append_nil, ← hrun]
      exact hs
    | cons a as ih =>
      intro taken s hs hC hrun
      obtain ⟨t, ht, hrun⟩ := M.run_cons_eq_some.mp hrun
      obtain ⟨hCa, hCas⟩ := hC t ht
      have hnext := ih (taken ++ [a]) t (hstep taken s a t hs hCa ht) hCas hrun
      rwa [List.append_assoc, List.singleton_append] at hnext
  exact hfrom as [] s hs hC hrun

theorem run_invariant_of_each {P : σ → Prop} {C : σ → α → Prop}
    (hstep : ∀ s a s', P s → C s a → M.step s a = some s' → P s') {as : List α} {s s' : σ}
    (hs : P s) (hC : M.Each C s as) (hrun : M.run s as = some s') : P s' :=
  M.always_run (M.always_of_each hstep hs hC) hrun

/-- A property that, on states with the invariant `I`, holds after a step exactly when the step
meets `C`, holds along a run exactly when every step of the run meets `C`; only steps that meet
`C` need to keep the invariant.  The runs may be limited to those whose steps meet some `D`. -/
theorem always_iff_each_of_kept {I P : σ → Prop} {C D : σ → α → Prop}
    (hI : ∀ s a s', I s → D s a → C s a → M.step s a = some s' → I s')
    (hP : ∀ s a s', I s → D s a → M.step s a = some s' → (P s' ↔ C s a))
    (as : List α) (s : σ) (hIs : I s) (hs : P s) (hD : M.Each D s as) :
    M.Always P s as ↔ M.Each C s as := by
  induction as generalizing s with
  | nil => simp only [Always, Each, hs]
  | cons a as ih =>
    simp only [Always, Each]
    constructor
    · rintro ⟨-, h⟩ s' hs'
      have hP' : P s' := Always.head M (h s' hs')
      have hC : C s a := (hP s a s' hIs (hD s' hs').1 hs').mp hP'
      have hI' : I s' := hI s a s' hIs (hD s' hs').1 hC hs'
      exact ⟨hC, (ih s' hI' hP' (hD s' hs').2).mp (h s' hs')⟩
    · intro h
      refine ⟨hs, fun s' hs' => ?_⟩
      obtain ⟨hC, hEach⟩ := h s' hs'
      have hP' : P s' := (hP s a s' hIs (hD s' hs').1 hs').mpr hC
      have hI' : I s' := hI s a s' hIs (hD s' hs').1 hC hs'
      exact (ih s' hI' hP' (hD s' hs').2).mpr hEach

/-- The same for an invariant that every step keeps. -/
theorem always_iff_each {I P : σ → Prop} {C D : σ → α → Prop}
    (hI : ∀ s a s', I s → M.step s a = some s' → I s')
    (hP : ∀ s a s', I s → D s a → P s → M.step s a = some s' → (P s' ↔ C s a))
    (as : List α) (s : σ) (hIs : I s) (hPs : P s) (hD : M.Each D s as) :
    M.Always P s as ↔ M.Each C s as := by
  have hkept : ∀ s a s', I s ∧ P s → D s a → C s a → M.step s a = some s' → I s' ∧ P s' :=
    fun s a s' hs hD hC hstep =>
      ⟨hI s a s' hs.1 hstep, (hP s a s' hs.1 hD hs.2 hstep).mpr hC⟩
  have hdecided : ∀ s a s', I s ∧ P s → D s a → M.step s a = some s' → (P s' ↔ C s a) :=
    fun s a s' hs hD hstep => hP s a s' hs.1 hD hs.2 hstep
  exact M.always_iff_each_of_kept hkept hdecided as s ⟨hIs, hPs⟩ hPs hD

/-- States that no single action tells apart are told apart by no run. -/
theorem run_rel {R : σ → σ → Prop}
    (hstep : ∀ s t a, R s t → Option.Rel R (M.step s a) (M.step t a)) :
    ∀ (as : List α) {s t : σ}, R s t → Option.Rel R (M.run s as) (M.run t as)
  | [], _, _, h => .some h
  | a :: as, s, t, h => by
      rw [run_cons, run_cons]
      exact rel_bind (hstep s t a h) fun _ _ h' => run_rel hstep as h'

/-- Forward simulation: if each step is a step of `N` between the states it is seen as, or does
not show, a run is seen as a run of `N`. -/
theorem run_simulates {τ β : Type*} (N : Machine τ β) {P : σ → Prop} {f : σ → τ}
    (hstep : ∀ s a s', P s → M.step s a = some s' →
      P s' ∧ (f s' = f s ∨ ∃ b, N.step (f s) b = some (f s'))) :
    ∀ (as : List α) {s s' : σ}, P s → M.run s as = some s' →
      P s' ∧ ∃ bs, N.run (f s) bs = some (f s')
  | [], s, s', hs, hrun => by
      rw [run_nil, Option.some_inj] at hrun
      exact ⟨hrun ▸ hs, [], congrArg (some ∘ f) hrun⟩
  | a :: as, s, s', hs, hrun => by
      obtain ⟨t, ht, hrest⟩ := M.run_cons_eq_some.mp hrun
      obtain ⟨hP, hseen⟩ := hstep s a t hs ht
      obtain ⟨hP', bs, hbs⟩ := run_simulates N hstep as hP hrest
      refine ⟨hP', ?_⟩
      obtain heq | ⟨b, hb⟩ := hseen
      · exact ⟨bs, heq ▸ hbs⟩
      · exact ⟨b :: bs, N.run_cons_eq_some.mpr ⟨_, hb, hbs⟩⟩

end Machine

/-! ## Objects whose operations return results -/

section Refinement

variable {σ τ ω ρ : Type*}

/-- Apply the operations in turn and collect their results; `none` if one of them fails. -/
def collect (apply : σ → ω → Option (σ × ρ)) : σ → List ω → Option (σ × List ρ)
  | s, [] => some (s, [])
  | s, op :: ops => do
      let (s', r) ← apply s op
      let (s'', rs) ← collect apply s' ops
      return (s'', r :: rs)

/-- The results of an object that never fails. -/
def answers (spec : τ → ω → τ × ρ) : τ → List ω → τ × List ρ
  | t, [] => (t, [])
  | t, op :: ops =>
      let next := answers spec (spec t op).1 ops
      (next.1, (spec t op).2 :: next.2)

/-- If each permitted operation succeeds, answers as the abstract object does and keeps the
relation `R` to it, then so does every list of permitted operations. -/
theorem collect_refines {apply : σ → ω → Option (σ × ρ)} {spec : τ → ω → τ × ρ}
    {R : σ → τ → Prop} {ok : ω → Prop}
    (h : ∀ s t op, R s t → ok op →
      ∃ s', apply s op = some (s', (spec t op).2) ∧ R s' (spec t op).1) :
    ∀ (ops : List ω) (s : σ) (t : τ), R s t → (∀ op ∈ ops, ok op) →
      ∃ s', collect apply s ops = some (s', (answers spec t ops).2) ∧
        R s' (answers spec t ops).1
  | [], s, t, hR, _ => ⟨s, rfl, hR⟩
  | op :: ops, s, t, hR, hok => by
      obtain ⟨s₁, hs₁, hR₁⟩ := h s t op hR (hok op (List.mem_cons_self ..))
      obtain ⟨s₂, hs₂, hR₂⟩ := collect_refines h ops s₁ _ hR₁
        (fun o ho => hok o (List.mem_cons_of_mem _ ho))
      refine ⟨s₂, ?_, hR₂⟩
      simp [collect, answers, hs₁, hs₂]

/-- The same for an object that never fails itself. -/
theorem answers_refines {impl : σ → ω → σ × ρ} {spec : τ → ω → τ × ρ} {R : σ → τ → Prop}
    (h : ∀ s t op, R s t →
      (impl s op).2 = (spec t op).2 ∧ R (impl s op).1 (spec t op).1) (ops : List ω) {s : σ} {t : τ}
    (hR : R s t) : (answers impl s ops).2 = (answers spec t ops).2 ∧
      R (answers impl s ops).1 (answers spec t ops).1 := by
  induction ops generalizing s t with
  | nil => exact ⟨rfl, hR⟩
  | cons op ops ih =>
    obtain ⟨hanswer, hnext⟩ := h s t op hR
    obtain ⟨hanswers, hend⟩ := ih hnext
    exact ⟨congrArg₂ List.cons hanswer hanswers, hend⟩

end Refinement

end Coring
