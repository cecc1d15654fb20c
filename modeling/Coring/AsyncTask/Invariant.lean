import Coring.AsyncTask.Basic
import Mathlib.Data.List.Nodup

/-!
# Who awaits whom

The tasks of a program form a forest: a coroutine awaits only tasks it has started, and a task is
started by one coroutine.  So a coroutine suspended on a task is the only one, and the promise of
the task knows it until the task ends (`Inv.awaiting`, `Inv.continuation`).  This file states the
invariant and shows that every step keeps it.
-/

namespace Coring.AsyncTask

variable {α ε : Type}

/-! ## Frames -/

namespace Pc

/-- The coroutine is running or awaits an I/O operation. -/
def free : Pc α ε → Bool
  | .running _ | .awaitingIo _ => true
  | .awaitingTask .. | .done => false

end Pc

namespace Frame

variable {f : Frame α ε}

lemma isDone_iff : f.isDone = true ↔ f.pc = .done := by
  unfold isDone
  cases f.pc <;> simp

lemma isDone_of_free (h : f.pc.free = true) : f.isDone = false := by
  unfold isDone
  cases hpc : f.pc with
  | done =>
    rw [hpc] at h
    cases h
  | _ => rfl

lemma isDone_of_running {body : Body α ε} (h : f.pc = .running body) : f.isDone = false :=
  isDone_of_free (by rw [h]; rfl)

/-- Two frames that differ only in where a coroutine that is concerned with no task is. -/
structure Alike (f f' : Frame α ε) : Prop where
  tasks : f'.tasks = f.tasks
  whoAwaitMe : f'.whoAwaitMe = f.whoAwaitMe
  result : f'.result = f.result
  isDone : f'.isDone = f.isDone
  awaiting : ∀ c k, f'.pc = .awaitingTask c k ↔ f.pc = .awaitingTask c k

lemma Alike.refl (f : Frame α ε) : Alike f f := ⟨rfl, rfl, rfl, rfl, fun _ _ => Iff.rfl⟩

lemma alike_of_free {pc : Pc α ε} (hold : f.pc.free = true) (hnew : pc.free = true) :
    Alike f { f with pc := pc } where
  tasks := rfl
  whoAwaitMe := rfl
  result := rfl
  isDone := by rw [isDone_of_free hold, isDone_of_free (f := { f with pc := pc }) hnew]
  awaiting := by
    intro c k
    constructor
    · rintro rfl
      cases hnew
    · intro hc
      rw [hc] at hold
      cases hold

end Frame

/-! ## The invariant -/

namespace State

/-- How frames, stack and history belong together. -/
structure Inv (s : State α ε) : Prop where
  absent : ∀ t, s.called ≤ t → s.frame t = .absent
  nodup : s.stack.Nodup
  onStack : ∀ t, t ∈ s.stack ↔ ∃ body, (s.frame t).pc = .running body
  /-- Tasks are younger than the coroutine that has started them, -/
  younger : ∀ t c, c ∈ (s.frame t).tasks → t < c ∧ c < s.called
  /-- which is the only one to hold them. -/
  owner : ∀ t t' c, c ∈ (s.frame t).tasks → c ∈ (s.frame t').tasks → t = t'
  awaiting : ∀ t c k, (s.frame t).pc = .awaitingTask c k →
    c ∈ (s.frame t).tasks ∧ (s.frame c).whoAwaitMe = some t ∧ (s.frame c).isDone = false
  continuation : ∀ c w, (s.frame c).whoAwaitMe = some w → (w, c) ∈ s.suspensions
  suspended : ∀ t c, (t, c) ∈ s.suspensions → c ∈ (s.frame t).tasks ∧
    ((s.frame c).isDone = false → ∃ k, (s.frame t).pc = .awaitingTask c k)
  result : ∀ t, t < s.called → ((s.frame t).isDone = true ↔ (s.frame t).result ≠ none)
  once : s.suspensions.Nodup ∧ s.resumptions.Nodup
  resumed : ∀ t c, (t, c) ∈ s.resumptions ↔ (t, c) ∈ s.suspensions ∧ (s.frame c).isDone = true
  obtained : ∀ t c r, (t, c, r) ∈ s.obtained → (s.frame c).result = some r
  read : ∀ t c, (t, c) ∈ s.resumptions → ∃ r, (t, c, r) ∈ s.obtained

lemma inv_start : Inv (start : State α ε) where
  absent := fun _ _ => rfl
  nodup := List.nodup_nil
  onStack := by simp [start, Frame.absent]
  younger := by simp [start, Frame.absent]
  owner := by simp [start, Frame.absent]
  awaiting := by simp [start, Frame.absent]
  continuation := by simp [start, Frame.absent]
  suspended := by simp [start]
  result := by simp [start]
  once := ⟨List.nodup_nil, List.nodup_nil⟩
  resumed := by simp [start]
  obtained := by simp [start]
  read := by simp [start]

variable {s s' : State α ε} {t : ℕ}

lemma Inv.lt_of_isDone (h : Inv s) (hd : (s.frame t).isDone = false) : t < s.called := by
  by_contra hge
  rw [h.absent t (Nat.not_lt.mp hge)] at hd
  cases hd

/-- The coroutine on top of the stack stands nowhere else on it. -/
lemma Inv.rest (h : Inv s) {rest : List ℕ} (hstack : s.stack = t :: rest) :
    rest.Nodup ∧ t ∉ rest := by
  have hnodup := h.nodup
  rw [hstack, List.nodup_cons] at hnodup
  exact hnodup.symm

/-- No coroutine awaits a task that has none in its promise. -/
lemma Inv.not_suspended (h : Inv s) (hwho : (s.frame t).whoAwaitMe = none)
    (hd : (s.frame t).isDone = false) (u : ℕ) : (u, t) ∉ s.suspensions := by
  intro hmem
  obtain ⟨k, hk⟩ := (h.suspended u t hmem).2 hd
  have hwho' := (h.awaiting u t k hk).2.1
  rw [hwho] at hwho'
  cases hwho'

@[simp] lemma setPc_frame_self (s : State α ε) (t : ℕ) (pc : Pc α ε) :
    (s.setPc t pc).frame t = { s.frame t with pc := pc } :=
  Function.update_self ..

lemma setPc_frame_of_ne (s : State α ε) {t u : ℕ} (hu : u ≠ t) (pc : Pc α ε) :
    (s.setPc t pc).frame u = s.frame u :=
  Function.update_of_ne hu ..

/-! ## Steps that concern one coroutine -/

/-- The invariant reads no more of the frames than `Alike` keeps. -/
lemma Inv.congr (h : Inv s) {frame : ℕ → Frame α ε} {stack : List ℕ}
    (hframe : ∀ u, (s.frame u).Alike (frame u)) (habsent : ∀ u, s.called ≤ u → frame u = .absent)
    (hnodup : stack.Nodup) (hstack : ∀ u, u ∈ stack ↔ ∃ body, (frame u).pc = .running body) :
    Inv { s with frame := frame, stack := stack } where
  absent := habsent
  nodup := hnodup
  onStack := hstack
  younger := by
    intro u c hc
    exact h.younger u c ((hframe u).tasks ▸ hc)
  owner := by
    intro u u' c hc hc'
    exact h.owner u u' c ((hframe u).tasks ▸ hc) ((hframe u').tasks ▸ hc')
  awaiting := by
    intro u c k hk
    simp only [(hframe u).tasks, (hframe c).whoAwaitMe, (hframe c).isDone]
    exact h.awaiting u c k (((hframe u).awaiting c k).mp hk)
  continuation := by
    intro c w hw
    exact h.continuation c w ((hframe c).whoAwaitMe ▸ hw)
  suspended := by
    intro u c hmem
    simp only [(hframe u).tasks, (hframe c).isDone, (hframe u).awaiting]
    exact h.suspended u c hmem
  result := by
    intro u hu
    simp only [(hframe u).isDone, (hframe u).result]
    exact h.result u hu
  once := h.once
  resumed := by
    intro u c
    simp only [(hframe c).isDone]
    exact h.resumed u c
  obtained := by
    intro u c r hmem
    simp only [(hframe c).result]
    exact h.obtained u c r hmem
  read := h.read

/-- A coroutine that is concerned with no task goes on to another such place. -/
lemma Inv.move (h : Inv s) {pc : Pc α ε} {stack : List ℕ} (hold : (s.frame t).pc.free = true)
    (hnew : pc.free = true) (hnodup : stack.Nodup)
    (hstack : ∀ u, u ∈ stack ↔ u ≠ t ∧ u ∈ s.stack ∨ u = t ∧ ∃ body, pc = .running body) :
    Inv { s.setPc t pc with stack := stack } := by
  have hlt : t < s.called := h.lt_of_isDone (Frame.isDone_of_free hold)
  refine h.congr (fun u => ?_) (fun u hu => ?_) hnodup (fun u => ?_)
  · by_cases hu : u = t
    · subst hu
      rw [setPc_frame_self]
      exact Frame.alike_of_free hold hnew
    · rw [setPc_frame_of_ne s hu]
      exact Frame.Alike.refl _
  · rw [setPc_frame_of_ne s (by omega)]
    exact h.absent u hu
  · rw [hstack]
    by_cases hu : u = t
    · subst hu
      simp
    · simp [setPc_frame_of_ne s hu, hu, h.onStack]

/-- A result is read. -/
lemma Inv.obtain (h : Inv s) {c : ℕ} {r : Result α ε} (hr : (s.frame c).result = some r) :
    Inv { s with obtained := s.obtained ++ [(t, c, r)] } :=
  { h with
    obtained := by
      intro u c' r' hmem
      rcases List.mem_append.mp hmem with hmem | hmem
      · exact h.obtained u c' r' hmem
      · obtain ⟨-, rfl, rfl⟩ : u = t ∧ c' = c ∧ r' = r := by simpa using hmem
        exact hr
    read := by
      intro u c' hmem
      obtain ⟨r', hr'⟩ := h.read u c' hmem
      exact ⟨r', List.mem_append_left _ hr'⟩ }

/-! ## Calls -/

/-- A coroutine is called; nothing refers to its frame yet. -/
lemma Inv.call (h : Inv s) (body : Body α ε) : Inv (s.call body) := by
  have hnew : s.frame s.called = .absent := h.absent _ (Nat.le_refl _)
  have hframe : ∀ u, u ≠ s.called → (s.call body).frame u = s.frame u := fun u hu =>
    Function.update_of_ne hu ..
  have hself : (s.call body).frame s.called = Frame.called body := Function.update_self ..
  have htasks : ∀ u, ((s.call body).frame u).tasks = (s.frame u).tasks := by
    intro u
    by_cases hu : u = s.called
    · rw [hu, hself, hnew]
      rfl
    · rw [hframe u hu]
  have hsusp : ∀ u c, (u, c) ∈ s.suspensions → c ≠ s.called ∧ u ≠ s.called := by
    intro u c hmem
    have hlt := h.younger u c (h.suspended u c hmem).1
    omega
  exact {
    absent := by
      intro u hu
      have hne : u ≠ s.called := by simp only [State.call] at hu; omega
      rw [hframe u hne]
      exact h.absent u (by simp only [State.call] at hu; omega)
    nodup := by
      refine List.nodup_cons.mpr ⟨fun hmem => ?_, h.nodup⟩
      obtain ⟨b, hb⟩ := (h.onStack _).mp hmem
      rw [hnew] at hb
      cases hb
    onStack := by
      intro u
      by_cases hu : u = s.called
      · rw [hu, hself]
        exact ⟨fun _ => ⟨body, rfl⟩, fun _ => List.mem_cons_self⟩
      · rw [hframe u hu, ← h.onStack]
        exact ⟨fun hmem => (List.mem_cons.mp hmem).resolve_left hu, List.mem_cons_of_mem _⟩
    younger := by
      intro u c hc
      rw [htasks] at hc
      have hlt := h.younger u c hc
      exact ⟨hlt.1, Nat.lt_succ_of_lt hlt.2⟩
    owner := by
      intro u u' c hc hc'
      rw [htasks] at hc hc'
      exact h.owner u u' c hc hc'
    awaiting := by
      intro u c k hk
      have hu : u ≠ s.called := by
        rintro rfl
        rw [hself] at hk
        cases hk
      rw [hframe u hu] at hk
      have hk' := h.awaiting u c k hk
      have hc : c ≠ s.called := by
        have := (h.younger u c hk'.1).2
        omega
      rw [htasks, hframe c hc]
      exact hk'
    continuation := by
      intro c w hw
      by_cases hc : c = s.called
      · rw [hc, hself] at hw
        cases hw
      · rw [hframe c hc] at hw
        exact h.continuation c w hw
    suspended := by
      intro u c hmem
      obtain ⟨hc, hu⟩ := hsusp u c hmem
      rw [hframe c hc, hframe u hu]
      exact h.suspended u c hmem
    result := by
      intro u hu
      by_cases hne : u = s.called
      · rw [hne, hself]
        simp [Frame.called, Frame.isDone]
      · rw [hframe u hne]
        exact h.result u (by simp only [State.call] at hu; omega)
    once := h.once
    resumed := by
      intro u c
      by_cases hc : c = s.called
      · have hno : (u, c) ∉ s.suspensions := fun hmem => (hsusp u c hmem).1 hc
        exact ⟨fun hmem => absurd ((h.resumed u c).mp hmem).1 hno, fun hmem => absurd hmem.1 hno⟩
      · rw [hframe c hc]
        exact h.resumed u c
    obtained := by
      intro u c r hmem
      have hr := h.obtained u c r hmem
      by_cases hc : c = s.called
      · rw [hc, hnew] at hr
        cases hr
      · rw [hframe c hc]
        exact hr
    read := h.read }

/-- The frames with one more task for a coroutine. -/
def withTask (s : State α ε) (t c : ℕ) : State α ε :=
  { s with
    frame := Function.update s.frame t { s.frame t with tasks := (s.frame t).tasks ++ [c] } }

/-- A coroutine takes a task that nobody holds and that nobody has awaited. -/
lemma Inv.withTask (h : Inv s) {c : ℕ} (hlt : t < c) (hc : c < s.called)
    (hfree : ∀ u, c ∉ (s.frame u).tasks) : Inv (s.withTask t c) := by
  have hself : (s.withTask t c).frame t
      = { s.frame t with tasks := (s.frame t).tasks ++ [c] } := Function.update_self ..
  have hne : ∀ u, u ≠ t → (s.withTask t c).frame u = s.frame u := fun u hu =>
    Function.update_of_ne hu ..
  have htasks : ∀ u c', c' ∈ ((s.withTask t c).frame u).tasks ↔
      c' ∈ (s.frame u).tasks ∨ u = t ∧ c' = c := by
    intro u c'
    by_cases hu : u = t
    · subst hu
      simp [hself]
    · simp [hne u hu, hu]
  have hframe : ∀ u, ((s.withTask t c).frame u).pc = (s.frame u).pc ∧
      ((s.withTask t c).frame u).whoAwaitMe = (s.frame u).whoAwaitMe ∧
      ((s.withTask t c).frame u).result = (s.frame u).result := by
    intro u
    by_cases hu : u = t
    · subst hu
      simp [hself]
    · simp [hne u hu]
  have hdone : ∀ u, ((s.withTask t c).frame u).isDone = (s.frame u).isDone := fun u => by
    rw [Frame.isDone, (hframe u).1]
    rfl
  exact {
    absent := fun u hu => by
      have hut : u ≠ t := by simp only [State.withTask] at hu; omega
      rw [hne u hut]
      exact h.absent u hu
    nodup := h.nodup
    onStack := fun u => by
      rw [(hframe u).1]
      exact h.onStack u
    younger := fun u c' hc' => by
      rcases (htasks u c').mp hc' with hmem | ⟨rfl, rfl⟩
      · exact h.younger u c' hmem
      · exact ⟨hlt, hc⟩
    owner := fun u u' c' hc' hc'' => by
      rcases (htasks u c').mp hc' with hmem | ⟨rfl, rfl⟩
      · rcases (htasks u' c').mp hc'' with hmem' | ⟨-, rfl⟩
        · exact h.owner u u' c' hmem hmem'
        · exact absurd hmem (hfree u)
      · rcases (htasks u' c').mp hc'' with hmem' | ⟨rfl, -⟩
        · exact absurd hmem' (hfree u')
        · rfl
    awaiting := fun u c' k hk => by
      rw [(hframe u).1] at hk
      rw [htasks, (hframe c').2.1, hdone]
      have hk' := h.awaiting u c' k hk
      exact ⟨.inl hk'.1, hk'.2⟩
    continuation := fun c' w hw => h.continuation c' w ((hframe c').2.1 ▸ hw)
    suspended := fun u c' hmem => by
      rw [htasks, hdone, (hframe u).1]
      have hs := h.suspended u c' hmem
      exact ⟨.inl hs.1, hs.2⟩
    result := fun u hu => by
      rw [hdone, (hframe u).2.2]
      exact h.result u hu
    once := h.once
    resumed := fun u c' => by
      rw [hdone]
      exact h.resumed u c'
    obtained := fun u c' r hmem => by
      rw [(hframe c').2.2]
      exact h.obtained u c' r hmem
    read := h.read }

/-! ## Awaits -/

/-- The state in which a coroutine is suspended on a task. -/
def suspend (s : State α ε) (t c : ℕ) (k : Result α ε → Body α ε) (rest : List ℕ) : State α ε :=
  { s with
    frame := Function.update (Function.update s.frame t { s.frame t with pc := .awaitingTask c k })
      c { s.frame c with whoAwaitMe := some t }
    stack := rest
    suspensions := s.suspensions ++ [(t, c)] }

lemma awaitTask_eq {c : ℕ} {k : Result α ε → Body α ε} {rest : List ℕ} (hne : c ≠ t)
    (hd : (s.frame c).isDone = false) : s.awaitTask t c k rest = some (s.suspend t c k rest) := by
  simp only [State.awaitTask, hd, Bool.false_eq_true, if_false, suspend, setPc_frame_of_ne s hne]
  rfl

lemma Inv.suspend (h : Inv s) {body : Body α ε} {c : ℕ} {k : Result α ε → Body α ε}
    {rest : List ℕ} (hstack : s.stack = t :: rest) (hpc : (s.frame t).pc = .running body)
    (hc : c ∈ (s.frame t).tasks) (hd : (s.frame c).isDone = false) :
    Inv (s.suspend t c k rest) := by
  obtain ⟨hlt, hcalled⟩ := h.younger t c hc
  have htc : t ≠ c := Nat.ne_of_lt hlt
  have hself : (s.suspend t c k rest).frame t = { s.frame t with pc := .awaitingTask c k } := by
    simp only [State.suspend, Function.update_of_ne htc, Function.update_self]
  have hchild : (s.suspend t c k rest).frame c = { s.frame c with whoAwaitMe := some t } :=
    Function.update_self ..
  have hne : ∀ u, u ≠ t → u ≠ c → (s.suspend t c k rest).frame u = s.frame u := fun u hu hu' => by
    simp only [State.suspend, Function.update_of_ne hu', Function.update_of_ne hu]
  have hframe : ∀ u, ((s.suspend t c k rest).frame u).tasks = (s.frame u).tasks ∧
      ((s.suspend t c k rest).frame u).result = (s.frame u).result ∧
      ((s.suspend t c k rest).frame u).isDone = (s.frame u).isDone ∧
      (u ≠ t → ((s.suspend t c k rest).frame u).pc = (s.frame u).pc) ∧
      (u ≠ c → ((s.suspend t c k rest).frame u).whoAwaitMe = (s.frame u).whoAwaitMe) := by
    intro u
    by_cases hu : u = t
    · subst hu
      simp [hself, Frame.isDone, hpc]
    · by_cases hu' : u = c
      · subst hu'
        simp [hchild, Frame.isDone]
      · simp [hne u hu hu']
  -- The coroutine runs, so it is not suspended on anything.
  have hrunning : ∀ c' k', (s.frame t).pc ≠ .awaitingTask c' k' := fun c' k' hk => by
    rw [hpc] at hk
    cases hk
  have hnew : (t, c) ∉ s.suspensions := fun hmem => by
    obtain ⟨k', hk'⟩ := (h.suspended t c hmem).2 hd
    exact hrunning c k' hk'
  have hrest := h.rest hstack
  exact {
    absent := fun u hu => by
      have hu : s.called ≤ u := hu
      rw [hne u (by omega) (by omega)]
      exact h.absent u hu
    nodup := hrest.1
    onStack := fun u => by
      by_cases hu : u = t
      · subst hu
        rw [hself]
        exact iff_of_false hrest.2 fun ⟨_, hb⟩ => by cases hb
      · rw [(hframe u).2.2.2.1 hu, ← h.onStack, hstack]
        simp [State.suspend, hu]
    younger := fun u c' hc' => h.younger u c' ((hframe u).1 ▸ hc')
    owner := fun u u' c' hc' hc'' => h.owner u u' c' ((hframe u).1 ▸ hc') ((hframe u').1 ▸ hc'')
    awaiting := fun u c' k' hk => by
      rw [(hframe u).1, (hframe c').2.2.1]
      by_cases hu : u = t
      · subst hu
        rw [hself] at hk
        obtain ⟨rfl, -⟩ : c = c' ∧ k = k' := by simpa using hk
        exact ⟨hc, by rw [hchild], hd⟩
      · rw [(hframe u).2.2.2.1 hu] at hk
        have hk' := h.awaiting u c' k' hk
        -- A task of another coroutine is another task.
        have hc' : c' ≠ c := fun heq => hu (h.owner u t c (heq ▸ hk'.1) hc)
        rw [(hframe c').2.2.2.2 hc']
        exact hk'
    continuation := fun c' w hw => by
      by_cases hc' : c' = c
      · subst hc'
        rw [hchild] at hw
        rw [← Option.some_inj.mp hw]
        exact List.mem_append_right _ (List.mem_singleton_self _)
      · rw [(hframe c').2.2.2.2 hc'] at hw
        exact List.mem_append_left _ (h.continuation c' w hw)
    suspended := fun u c' hmem => by
      rw [(hframe u).1, (hframe c').2.2.1]
      rcases List.mem_append.mp hmem with hmem | hmem
      · have hs := h.suspended u c' hmem
        refine ⟨hs.1, fun hd' => ?_⟩
        obtain ⟨k', hk'⟩ := hs.2 hd'
        have hu : u ≠ t := fun heq => hrunning c' k' (heq ▸ hk')
        exact ⟨k', by rw [(hframe u).2.2.2.1 hu, hk']⟩
      · obtain ⟨rfl, rfl⟩ : u = t ∧ c' = c := by simpa using hmem
        exact ⟨hc, fun _ => ⟨k, by rw [hself]⟩⟩
    result := fun u hu => by
      rw [(hframe u).2.2.1, (hframe u).2.1]
      exact h.result u hu
    once := by
      refine ⟨?_, h.once.2⟩
      rw [State.suspend, ← List.concat_eq_append]
      exact h.once.1.concat hnew
    resumed := fun u c' => by
      rw [(hframe c').2.2.1]
      refine (h.resumed u c').trans ⟨fun hr => ⟨List.mem_append_left _ hr.1, hr.2⟩, fun hr => ?_⟩
      rcases List.mem_append.mp hr.1 with hmem | hmem
      · exact ⟨hmem, hr.2⟩
      · obtain ⟨rfl, rfl⟩ : u = t ∧ c' = c := by simpa using hmem
        rw [hd] at hr
        cases hr.2
    obtained := fun u c' r hmem => by
      rw [(hframe c').2.1]
      exact h.obtained u c' r hmem
    read := h.read }

/-! ## The tasks of a body that ends -/

lemma destroyTasks_cons (frame : ℕ → Frame α ε) (depth c : ℕ) (tasks : List ℕ)
    (destroyed : ℕ → Bool) :
    destroyTasks frame (depth + 1) (c :: tasks) destroyed
      = destroyTasks frame (depth + 1) tasks
          (if (frame c).isDone then Function.update destroyed c true
          else destroyTasks frame depth (frame c).tasks (Function.update destroyed c true)) := rfl

/-- What has been destroyed stays so, -/
lemma destroyTasks_mono (frame : ℕ → Frame α ε) {depth u : ℕ} {tasks : List ℕ}
    {destroyed : ℕ → Bool} (h : destroyed u = true) :
    destroyTasks frame depth tasks destroyed u = true := by
  induction depth generalizing tasks destroyed with
  | zero => exact h
  | succ depth ih =>
    induction tasks generalizing destroyed with
    | nil => exact h
    | cons c tasks ihTasks =>
      have hself : Function.update destroyed c true u = true := by
        by_cases hc : u = c
        · rw [hc, Function.update_self]
        · rwa [Function.update_of_ne hc]
      rw [destroyTasks_cons]
      refine ihTasks ?_
      split
      · exact hself
      · exact ih hself

/-- the tasks are, -/
lemma destroyTasks_mem (frame : ℕ → Frame α ε) {depth c : ℕ} {tasks : List ℕ}
    (destroyed : ℕ → Bool) (hc : c ∈ tasks) :
    destroyTasks frame (depth + 1) tasks destroyed c = true := by
  induction tasks generalizing destroyed with
  | nil => cases hc
  | cons c' tasks ih =>
    rw [destroyTasks_cons]
    obtain rfl | hc := List.mem_cons.mp hc
    · refine destroyTasks_mono frame ?_
      split
      · exact Function.update_self ..
      · exact destroyTasks_mono frame (Function.update_self ..)
    · exact ih _ hc

/-- and the tasks of each that has not ended: there are levels enough. -/
lemma destroyTasks_closed {frame : ℕ → Frame α ε} {called : ℕ}
    (hyounger : ∀ t c, c ∈ (frame t).tasks → t < c ∧ c < called) {depth u : ℕ} {tasks : List ℕ}
    {destroyed : ℕ → Bool} (hdepth : ∀ c ∈ tasks, called - c ≤ depth)
    (h : destroyTasks frame depth tasks destroyed u = true) (hu : destroyed u = false)
    (hd : (frame u).isDone = false) :
    ∀ c ∈ (frame u).tasks, destroyTasks frame depth tasks destroyed c = true := by
  induction depth generalizing tasks destroyed with
  | zero =>
    rw [show destroyTasks frame 0 tasks destroyed u = destroyed u from rfl, hu] at h
    cases h
  | succ depth ih =>
    induction tasks generalizing destroyed with
    | nil =>
      rw [show destroyTasks frame (depth + 1) [] destroyed u = destroyed u from rfl, hu] at h
      cases h
    | cons c tasks ihTasks =>
      intro v hv
      rw [destroyTasks_cons] at h ⊢
      have htail : ∀ c' ∈ tasks, called - c' ≤ depth + 1 := fun c' hc' =>
        hdepth c' (List.mem_cons_of_mem c hc')
      -- Was it destroyed with the first task, or later?
      cases hfirst : (if (frame c).isDone then Function.update destroyed c true
          else destroyTasks frame depth (frame c).tasks (Function.update destroyed c true)) u with
      | false => exact ihTasks htail h hfirst v hv
      | true =>
        refine destroyTasks_mono frame ?_
        by_cases huc : u = c
        · subst huc
          obtain ⟨hlt, hcalled⟩ := hyounger u v hv
          have hle := hdepth u List.mem_cons_self
          obtain ⟨depth', rfl⟩ : ∃ depth', depth = depth' + 1 := ⟨depth - 1, by omega⟩
          simp only [hd, Bool.false_eq_true, if_false]
          exact destroyTasks_mem frame _ hv
        · have hu' : Function.update destroyed c true u = false := by
            rwa [Function.update_of_ne huc]
          cases hdc : (frame c).isDone with
          | true =>
            simp only [hdc, if_true, hu'] at hfirst
            cases hfirst
          | false =>
            simp only [hdc, Bool.false_eq_true, if_false] at hfirst ⊢
            refine ih (fun c' hc' => ?_) hfirst hu' v hv
            obtain ⟨hlt, hcalled⟩ := hyounger c c' hc'
            have hle := hdepth c List.mem_cons_self
            omega

/-- Destroyed are the tasks themselves and younger ones that are held by one that has not ended. -/
lemma destroyTasks_marks {frame : ℕ → Frame α ε}
    (hyounger : ∀ t c, c ∈ (frame t).tasks → t < c) {depth u : ℕ} {tasks : List ℕ}
    {destroyed : ℕ → Bool} (h : destroyTasks frame depth tasks destroyed u = true) :
    destroyed u = true ∨ u ∈ tasks ∨ ∃ c ∈ tasks, (frame c).isDone = false ∧ c < u := by
  induction depth generalizing tasks destroyed with
  | zero => exact .inl h
  | succ depth ih =>
    induction tasks generalizing destroyed with
    | nil => exact .inl h
    | cons c tasks ihTasks =>
      rw [destroyTasks_cons] at h
      obtain h | h | ⟨c', hc', hd, hlt⟩ := ihTasks h
      · have hself : Function.update destroyed c true u = true → destroyed u = true ∨ u = c :=
          fun hu => by
            by_cases hc : u = c
            · exact .inr hc
            · rw [Function.update_of_ne hc] at hu
              exact .inl hu
        cases hd : (frame c).isDone with
        | true =>
          simp only [hd, if_true] at h
          exact (hself h).imp_right fun hu => .inl (List.mem_cons.mpr (.inl hu))
        | false =>
          simp only [hd, Bool.false_eq_true, if_false] at h
          obtain h | h | ⟨c', hc', -, hlt⟩ := ih h
          · exact (hself h).imp_right fun hu => .inl (List.mem_cons.mpr (.inl hu))
          · exact .inr (.inr ⟨c, List.mem_cons_self, hd, hyounger c u h⟩)
          · exact .inr (.inr ⟨c, List.mem_cons_self, hd, Nat.lt_trans (hyounger c c' hc') hlt⟩)
      · exact .inr (.inl (List.mem_cons_of_mem c h))
      · exact .inr (.inr ⟨c', List.mem_cons_of_mem c hc', hd, hlt⟩)

/-- When a body ends, its tasks are destroyed, and with each coroutine that has not ended its
own. -/
lemma Inv.destroyTasks_all (h : Inv s) {destroyed : ℕ → Bool}
    (hdestroyed : destroyed = destroyTasks s.frame s.called (s.frame t).tasks s.destroyed) :
    (∀ c ∈ (s.frame t).tasks, destroyed c = true) ∧
      ∀ u, destroyed u = true → s.destroyed u = false → (s.frame u).isDone = false →
        ∀ c ∈ (s.frame u).tasks, destroyed c = true := by
  subst hdestroyed
  refine ⟨fun c hc => ?_, fun u hu hold hd =>
    destroyTasks_closed h.younger (fun c _ => Nat.sub_le _ _) hu hold hd⟩
  obtain ⟨n, hn⟩ : ∃ n, s.called = n + 1 :=
    ⟨s.called - 1, by have := (h.younger t c hc).2; omega⟩
  rw [hn]
  exact destroyTasks_mem _ _ hc

/-- The frames that have been destroyed are those of coroutines that have ended. -/
def Kept (s : State α ε) : Prop :=
  ∀ t, s.destroyed t = true → t < s.called ∧ (s.frame t).isDone = true

lemma kept_start : Kept (start : State α ε) := fun t h => by cases h

lemma Kept.mono (h : Kept s) (hdestroyed : s'.destroyed = s.destroyed)
    (hcalled : s.called ≤ s'.called)
    (hdone : ∀ u < s.called, (s.frame u).isDone = true → (s'.frame u).isDone = true) :
    Kept s' := fun u hu => by
  rw [hdestroyed] at hu
  obtain ⟨hlt, hd⟩ := h u hu
  exact ⟨Nat.lt_of_lt_of_le hlt hcalled, hdone u hlt hd⟩

lemma Kept.not_destroyed (h : Kept s) (hd : (s.frame t).isDone = false) :
    s.destroyed t = false := by
  rw [← Bool.not_eq_true]
  intro htrue
  rw [(h t htrue).2] at hd
  cases hd

/-! ## The end of a body -/

/-- The state with a body at its end. -/
def ended (s : State α ε) (t : ℕ) (r : Result α ε) (rest : List ℕ) : State α ε :=
  { s with
    frame := Function.update s.frame t { s.frame t with pc := .done, result := some r }
    stack := rest
    destroyed := destroyTasks s.frame s.called (s.frame t).tasks s.destroyed }

/-- The state in which the coroutine that awaits the task goes on. -/
def handedOver (s : State α ε) (t w : ℕ) (r : Result α ε) (k : Result α ε → Body α ε)
    (rest : List ℕ) : State α ε :=
  { (s.ended t r (w :: rest)).setPc w (.running (k r)) with
    resumptions := s.resumptions ++ [(w, t)]
    obtained := s.obtained ++ [(w, t, r)] }

/-- The frames and the history are those of `s` after the body of `t` has come to its end, with
`rest` behind it on the stack; a coroutine that awaits the task goes on. -/
structure Ends (s s' : State α ε) (t : ℕ) (r : Result α ε) (rest : List ℕ) : Prop where
  called : s'.called = s.called
  suspensions : s'.suspensions = s.suspensions
  self : s'.frame t = { s.frame t with pc := .done, result := some r }
  woken : ∀ u, (s.frame t).whoAwaitMe = some u →
    ∃ b, s'.frame u = { s.frame u with pc := .running b }
  other : ∀ u, u ≠ t → (s.frame t).whoAwaitMe ≠ some u → s'.frame u = s.frame u
  stack : ∀ u, u ∈ s'.stack ↔ u ∈ rest ∨ (s.frame t).whoAwaitMe = some u
  nodup : rest.Nodup → s'.stack.Nodup
  resumptions : ∀ u c, (u, c) ∈ s'.resumptions ↔
    (u, c) ∈ s.resumptions ∨ c = t ∧ (s.frame t).whoAwaitMe = some u
  once : (∀ u, (u, t) ∉ s.resumptions) → s'.resumptions.Nodup
  obtained : ∀ u c r', (u, c, r') ∈ s'.obtained ↔ (u, c, r') ∈ s.obtained ∨
    c = t ∧ r' = r ∧ (s.frame t).whoAwaitMe = some u

/-- The coroutine in the promise of a task that has not ended is suspended on it, -/
lemma Inv.awaits (h : Inv s) {w : ℕ} (hd : (s.frame t).isDone = false)
    (hwho : (s.frame t).whoAwaitMe = some w) : ∃ k, (s.frame w).pc = .awaitingTask t k :=
  (h.suspended w t (h.continuation t w hwho)).2 hd

/-- and nobody else is. -/
lemma Inv.whoAwaitMe_of_suspended (h : Inv s) {u : ℕ} (hd : (s.frame t).isDone = false)
    (hmem : (u, t) ∈ s.suspensions) : (s.frame t).whoAwaitMe = some u := by
  obtain ⟨k, hk⟩ := (h.suspended u t hmem).2 hd
  exact (h.awaiting u t k hk).2.1

namespace Ends

variable {r : Result α ε} {rest : List ℕ}

/-- What the end leaves of the frames. -/
lemma frame (he : Ends s s' t r rest) (h : Inv s) (hd : (s.frame t).isDone = false) (u : ℕ) :
    (s'.frame u).tasks = (s.frame u).tasks ∧
    (s'.frame u).whoAwaitMe = (s.frame u).whoAwaitMe ∧ (u ≠ t →
      (s'.frame u).result = (s.frame u).result ∧ (s'.frame u).isDone = (s.frame u).isDone) := by
  by_cases hu : u = t
  · subst hu
    simp [he.self]
  · by_cases hw : (s.frame t).whoAwaitMe = some u
    · obtain ⟨b, hb⟩ := he.woken u hw
      obtain ⟨k, hk⟩ := h.awaits hd hw
      simp [hb, Frame.isDone, hk]
    · simp [he.other u hu hw]

/-- Who is suspended afterwards was so before, on another task. -/
lemma awaiting (he : Ends s s' t r rest) (h : Inv s) {u c : ℕ} {k : Result α ε → Body α ε}
    (hk : (s'.frame u).pc = .awaitingTask c k) :
    (s.frame u).pc = .awaitingTask c k ∧ c ≠ t := by
  have hu : u ≠ t := by
    rintro rfl
    rw [he.self] at hk
    cases hk
  have hw : (s.frame t).whoAwaitMe ≠ some u := fun hw => by
    obtain ⟨b, hb⟩ := he.woken u hw
    rw [hb] at hk
    cases hk
  rw [he.other u hu hw] at hk
  refine ⟨hk, ?_⟩
  rintro rfl
  exact hw (h.awaiting u c k hk).2.1

/-- Who is suspended on another task stays so. -/
lemma awaiting_of_ne (he : Ends s s' t r rest) (h : Inv s) (hd : (s.frame t).isDone = false)
    {body : Body α ε} (hpc : (s.frame t).pc = .running body) {u c : ℕ}
    {k : Result α ε → Body α ε} (hk : (s.frame u).pc = .awaitingTask c k) (hc : c ≠ t) :
    (s'.frame u).pc = .awaitingTask c k := by
  have hw : (s.frame t).whoAwaitMe ≠ some u := fun hw => by
    obtain ⟨k', hk'⟩ := h.awaits hd hw
    rw [hk] at hk'
    injection hk' with hct
    exact hc hct
  have hu : u ≠ t := by
    rintro rfl
    rw [hpc] at hk
    cases hk
  rw [he.other u hu hw, hk]

end Ends

/-- A task ends. -/
lemma Inv.of_end (h : Inv s) {body : Body α ε} {r : Result α ε} {rest : List ℕ}
    (hstack : s.stack = t :: rest) (hpc : (s.frame t).pc = .running body)
    (he : Ends s s' t r rest) : Inv s' := by
  have hd : (s.frame t).isDone = false := Frame.isDone_of_running hpc
  have hlt := h.lt_of_isDone hd
  have hd' : (s'.frame t).isDone = true := by rw [he.self]; rfl
  have hunresumed : ∀ u, (u, t) ∉ s.resumptions := fun u hmem => by
    have hdone := ((h.resumed u t).mp hmem).2
    rw [hd] at hdone
    cases hdone
  have hframe := he.frame h hd
  have hrest := h.rest hstack
  exact {
    absent := fun u hu => by
      rw [he.called] at hu
      have hw : (s.frame t).whoAwaitMe ≠ some u := fun hw => by
        obtain ⟨k, hk⟩ := h.awaits hd hw
        rw [h.absent u hu] at hk
        cases hk
      rw [he.other u (by omega) hw]
      exact h.absent u hu
    nodup := he.nodup hrest.1
    onStack := fun u => by
      rw [he.stack]
      by_cases hw : (s.frame t).whoAwaitMe = some u
      · obtain ⟨b, hb⟩ := he.woken u hw
        exact iff_of_true (.inr hw) ⟨b, by rw [hb]⟩
      · by_cases hu : u = t
        · subst hu
          rw [he.self]
          exact iff_of_false (fun hor => hor.elim hrest.2 hw) fun ⟨_, hb⟩ => by cases hb
        · rw [he.other u hu hw, ← h.onStack, hstack]
          simp [hw, hu]
    younger := fun u c hc => by
      rw [he.called]
      exact h.younger u c ((hframe u).1 ▸ hc)
    owner := fun u u' c hc hc' => h.owner u u' c ((hframe u).1 ▸ hc) ((hframe u').1 ▸ hc')
    awaiting := fun u c k hk => by
      obtain ⟨hk', hc⟩ := he.awaiting h hk
      rw [(hframe u).1, (hframe c).2.1, ((hframe c).2.2 hc).2]
      exact h.awaiting u c k hk'
    continuation := fun c w hw => by
      rw [he.suspensions]
      exact h.continuation c w ((hframe c).2.1 ▸ hw)
    suspended := fun u c hmem => by
      rw [he.suspensions] at hmem
      rw [(hframe u).1]
      have hs := h.suspended u c hmem
      refine ⟨hs.1, fun hdc => ?_⟩
      have hc : c ≠ t := by
        rintro rfl
        rw [hd'] at hdc
        cases hdc
      rw [((hframe c).2.2 hc).2] at hdc
      obtain ⟨k, hk⟩ := hs.2 hdc
      exact ⟨k, he.awaiting_of_ne h hd hpc hk hc⟩
    result := fun u hu => by
      by_cases hut : u = t
      · subst hut
        exact iff_of_true hd' (by rw [he.self]; simp)
      · rw [((hframe u).2.2 hut).1, ((hframe u).2.2 hut).2]
        exact h.result u (he.called ▸ hu)
    once := ⟨he.suspensions ▸ h.once.1, he.once hunresumed⟩
    resumed := fun u c => by
      rw [he.resumptions, he.suspensions]
      by_cases hc : c = t
      · subst hc
        simp only [hunresumed u, false_or, true_and, hd', and_true]
        exact ⟨h.continuation c u, h.whoAwaitMe_of_suspended hd⟩
      · rw [((hframe c).2.2 hc).2]
        simp [hc, h.resumed]
    obtained := fun u c r' hmem => by
      rcases (he.obtained u c r').mp hmem with hmem | ⟨rfl, rfl, -⟩
      · have hr := h.obtained u c r' hmem
        have hc : c ≠ t := by
          rintro rfl
          have hdone := (h.result c hlt).mpr (by rw [hr]; simp)
          rw [hd] at hdone
          cases hdone
        rw [((hframe c).2.2 hc).1]
        exact hr
      · rw [he.self]
    read := fun u c hmem => by
      rcases (he.resumptions u c).mp hmem with hmem | ⟨rfl, hw⟩
      · obtain ⟨r', hr'⟩ := h.read u c hmem
        exact ⟨r', (he.obtained u c r').mpr (.inl hr')⟩
      · exact ⟨r, (he.obtained u c r).mpr (.inr ⟨rfl, rfl, hw⟩)⟩ }

lemma finish_of_none {r : Result α ε} {rest : List ℕ} (hwho : (s.frame t).whoAwaitMe = none) :
    s.finish t r rest = some (s.ended t r rest) := by
  simp [finish, finalSuspend, hwho, State.ended]

lemma Inv.ended (h : Inv s) {body : Body α ε} {r : Result α ε} {rest : List ℕ}
    (hstack : s.stack = t :: rest) (hpc : (s.frame t).pc = .running body)
    (hwho : (s.frame t).whoAwaitMe = none) : Inv (s.ended t r rest) := by
  have hnobody : ∀ u, (s.frame t).whoAwaitMe ≠ some u := fun u hu => by
    rw [hwho] at hu
    cases hu
  exact h.of_end (r := r) hstack hpc {
    called := rfl
    suspensions := rfl
    self := Function.update_self ..
    woken := fun u hu => absurd hu (hnobody u)
    other := fun u hu _ => Function.update_of_ne hu ..
    stack := fun u => by simp [State.ended, hnobody u]
    nodup := id
    resumptions := fun u c => by simp [State.ended, hnobody u]
    once := fun _ => h.once.2
    obtained := fun u c r' => by simp [State.ended, hnobody u] }

lemma finish_of_some {w : ℕ} {r : Result α ε} {k : Result α ε → Body α ε} {rest : List ℕ}
    (hne : w ≠ t) (hwho : (s.frame t).whoAwaitMe = some w)
    (hk : (s.frame w).pc = .awaitingTask t k)
    (hkept : destroyTasks s.frame s.called (s.frame t).tasks s.destroyed w = false) :
    s.finish t r rest = some (s.handedOver t w r k rest) := by
  simp [finish, finalSuspend, hwho, hne, hk, hkept, Frame.isDone, awaitResume, handedOver,
    State.ended, setPc]

/-- The coroutine that awaits the task is older than the tasks that are destroyed. -/
lemma Inv.awaiter_kept (h : Inv s) (hkept : Kept s) {w : ℕ} {k : Result α ε → Body α ε}
    (hk : (s.frame w).pc = .awaitingTask t k) :
    destroyTasks s.frame s.called (s.frame t).tasks s.destroyed w = false := by
  have hwt : w < t := (h.younger w t (h.awaiting w t k hk).1).1
  have hw : s.destroyed w = false := hkept.not_destroyed (by rw [Frame.isDone, hk])
  rw [← Bool.not_eq_true]
  intro hmark
  obtain hmark | hmem | ⟨c, hc, -, hlt⟩ :=
    destroyTasks_marks (fun u c hc => (h.younger u c hc).1) hmark
  · rw [hw] at hmark
    cases hmark
  · exact absurd (h.younger t w hmem).1 (Nat.not_lt_of_lt hwt)
  · exact absurd (Nat.lt_trans (h.younger t c hc).1 hlt) (Nat.not_lt_of_lt hwt)

lemma Inv.handedOver (h : Inv s) {body : Body α ε} {w : ℕ} {r : Result α ε}
    {k : Result α ε → Body α ε} {rest : List ℕ} (hstack : s.stack = t :: rest)
    (hpc : (s.frame t).pc = .running body) (hwho : (s.frame t).whoAwaitMe = some w)
    (hk : (s.frame w).pc = .awaitingTask t k) : Inv (s.handedOver t w r k rest) := by
  have hne : w ≠ t := by
    rintro rfl
    rw [hpc] at hk
    cases hk
  have hnot : w ∉ s.stack := fun hmem => by
    obtain ⟨b, hb⟩ := (h.onStack w).mp hmem
    rw [hk] at hb
    cases hb
  exact h.of_end (r := r) hstack hpc {
    called := rfl
    suspensions := rfl
    self := by simp [State.handedOver, setPc_frame_of_ne _ hne.symm, State.ended]
    woken := fun u hu => by
      obtain rfl : w = u := Option.some_inj.mp (hwho.symm.trans hu)
      exact ⟨k r, by simp [State.handedOver, State.ended, hne]⟩
    other := fun u hu hw => by
      have huw : u ≠ w := fun heq => hw (heq ▸ hwho)
      simp [State.handedOver, setPc_frame_of_ne _ huw, State.ended, hu]
    stack := fun u => by
      rw [hwho, Option.some_inj]
      simp [State.handedOver, State.ended, setPc, or_comm, eq_comm]
    nodup := fun hrest => by
      rw [hstack] at hnot
      exact List.nodup_cons.mpr ⟨fun hmem => hnot (List.mem_cons_of_mem _ hmem), hrest⟩
    resumptions := fun u c => by
      rw [hwho, Option.some_inj]
      simp [State.handedOver, and_comm, eq_comm]
    once := fun hno => by
      rw [State.handedOver, ← List.concat_eq_append]
      exact h.once.2.concat (hno w)
    obtained := fun u c r' => by
      rw [hwho, Option.some_inj]
      simp only [State.handedOver, List.mem_append, List.mem_singleton, Prod.mk.injEq]
      exact or_congr_right ⟨fun ⟨hu, hc, hr⟩ => ⟨hc, hr, hu.symm⟩,
        fun ⟨hc, hr, hu⟩ => ⟨hu.symm, hc, hr⟩⟩ }

/-! ## What the running coroutine does -/

/-- A body comes to its end. -/
lemma finish_spec (h : Inv s) (hkept : Kept s) {body : Body α ε} {rest : List ℕ} (r : Result α ε)
    (hstack : s.stack = t :: rest) (hpc : (s.frame t).pc = .running body) :
    ((s.frame t).whoAwaitMe = none ∧ s.finish t r rest = some (s.ended t r rest) ∧
      Inv (s.ended t r rest)) ∨
    ∃ w k, (s.frame t).whoAwaitMe = some w ∧ (s.frame w).pc = .awaitingTask t k ∧
      s.finish t r rest = some (s.handedOver t w r k rest) ∧
      Inv (s.handedOver t w r k rest) := by
  have hd : (s.frame t).isDone = false := Frame.isDone_of_running hpc
  cases hwho : (s.frame t).whoAwaitMe with
  | none => exact .inl ⟨rfl, finish_of_none hwho, h.ended hstack hpc hwho⟩
  | some w =>
    obtain ⟨k, hk⟩ := h.awaits hd hwho
    have hne : w ≠ t := by
      rintro rfl
      rw [hpc] at hk
      cases hk
    exact .inr ⟨w, k, rfl, hk, finish_of_some hne hwho hk (h.awaiter_kept hkept hk),
      h.handedOver hstack hpc hwho hk⟩

/-- A call from a running coroutine. -/
lemma Inv.start (h : Inv s) {body : Body α ε} (child k : Body α ε)
    (hpc : (s.frame t).pc = .running body) :
    Inv (State.call { s with frame := Function.update s.frame t { s.frame t with
      pc := .running k, tasks := (s.frame t).tasks ++ [s.called] } } child) := by
  have hd : (s.frame t).isDone = false := Frame.isDone_of_running hpc
  have hlt := h.lt_of_isDone hd
  have hne : t ≠ s.called := Nat.ne_of_lt hlt
  have hcall := h.call child
  have hframe : ∀ u, ((s.call child).frame u).tasks = (s.frame u).tasks := by
    intro u
    by_cases hu : u = s.called
    · subst hu
      simp [State.call, Frame.called, h.absent _ (Nat.le_refl _), Frame.absent]
    · simp [State.call, hu]
  have htask : Inv ((s.call child).withTask t s.called) := by
    refine hcall.withTask hlt (Nat.lt_succ_self _) fun u hmem => ?_
    rw [hframe] at hmem
    exact Nat.lt_irrefl _ (h.younger u _ hmem).2
  have hmove : Inv { ((s.call child).withTask t s.called).setPc t (.running k) with
      stack := s.called :: s.stack } := by
    refine htask.move ?_ rfl htask.nodup fun u => ?_
    · simp [State.withTask, State.call, hne, hpc, Pc.free]
    · by_cases hu : u = t
      · subst hu
        simp [hne, (h.onStack u).mpr ⟨body, hpc⟩]
      · simp [State.withTask, State.call, hu]
  have heq : { ((s.call child).withTask t s.called).setPc t (.running k) with
      stack := s.called :: s.stack }
      = State.call { s with frame := Function.update s.frame t { s.frame t with
        pc := .running k, tasks := (s.frame t).tasks ++ [s.called] } } child := by
    simp [State.call, State.withTask, setPc, hne, Function.update_comm hne]
  rw [← heq]
  exact hmove

/-- The running coroutine can always go on. -/
lemma exec_spec (h : Inv s) (hkept : Kept s) {rest : List ℕ} (hstack : s.stack = t :: rest) :
    ∃ s', s.exec = some s' ∧ Inv s' := by
  obtain ⟨body, hpc⟩ := (h.onStack t).mp (by rw [hstack]; exact List.mem_cons_self)
  have hfree : (s.frame t).pc.free = true := by rw [hpc]; rfl
  have hrest := h.rest hstack
  -- A step that leaves the coroutine on top of the stack.
  have hstay : ∀ u, u ∈ s.stack ↔
      u ≠ t ∧ u ∈ s.stack ∨ u = t ∧ ∃ b : Body α ε, Pc.running body = .running b := by
    intro u
    by_cases hu : u = t
    · subst hu
      simp [hstack]
    · simp [hu]
  cases body with
  | coReturn v =>
    simp only [exec, hstack, hpc]
    rcases finish_spec h hkept (.ok v) hstack hpc with ⟨-, heq, hinv⟩ | ⟨w, k, -, -, heq, hinv⟩
    · exact ⟨_, heq, hinv⟩
    · exact ⟨_, heq, hinv⟩
  | throw e =>
    simp only [exec, hstack, hpc]
    rcases finish_spec h hkept (.error e) hstack hpc with ⟨-, heq, hinv⟩ | ⟨w, k, -, -, heq, hinv⟩
    · exact ⟨_, heq, hinv⟩
    · exact ⟨_, heq, hinv⟩
  | start child k =>
    refine ⟨_, ?_, h.start child k hpc⟩
    simp only [exec, hstack, hpc]
  | awaitIo k =>
    simp only [exec, hstack, hpc]
    refine ⟨_, rfl, h.move hfree rfl hrest.1 fun u => ?_⟩
    by_cases hu : u = t
    · subst hu
      simp [hrest.2]
    · simp [hstack, hu]
  | awaitTask i k =>
    cases hi : (s.frame t).tasks[i]? with
    | none =>
      simp only [exec, hstack, hpc, hi]
      exact ⟨_, rfl, h.move hfree rfl h.nodup (by simpa using hstay)⟩
    | some c =>
      have hc : c ∈ (s.frame t).tasks := List.mem_of_getElem? hi
      obtain ⟨hlt, hcalled⟩ := h.younger t c hc
      simp only [exec, hstack, hpc, hi]
      cases hd : (s.frame c).isDone with
      | false =>
        exact ⟨_, awaitTask_eq (Nat.ne_of_gt hlt) hd, h.suspend hstack hpc hc hd⟩
      | true =>
        obtain ⟨r, hr⟩ := Option.ne_none_iff_exists'.mp ((h.result c hcalled).mp hd)
        have hmove : Inv { s.setPc t (.running (k r)) with stack := s.stack } :=
          h.move hfree rfl h.nodup (by simpa using hstay)
        refine ⟨_, ?_, hmove.obtain (t := t) (c := c) (r := r) ?_⟩
        · simp [State.awaitTask, hd, awaitResume, hr, setPc]
        · rw [setPc_frame_of_ne s (Nat.ne_of_gt hlt)]
          exact hr

/-- A body that has seen the end of its tasks destroys no others. -/
lemma Kept.finish (h : Inv s) (hkept : Kept s) {body : Body α ε} {rest : List ℕ}
    {r : Result α ε} (hstack : s.stack = t :: rest) (hpc : (s.frame t).pc = .running body)
    (htasks : ∀ c ∈ (s.frame t).tasks, (s.frame c).isDone = true)
    (hs : s.finish t r rest = some s') : Kept s' := by
  have hlt := h.lt_of_isDone (Frame.isDone_of_running hpc)
  have hmarks : ∀ u, destroyTasks s.frame s.called (s.frame t).tasks s.destroyed u = true →
      u < s.called ∧ (s.frame u).isDone = true := fun u hu => by
    obtain hu | hu | ⟨c, hc, hd, -⟩ :=
      destroyTasks_marks (fun v c hc => (h.younger v c hc).1) hu
    · exact hkept u hu
    · exact ⟨(h.younger t u hu).2, htasks u hu⟩
    · rw [htasks c hc] at hd
      cases hd
  rcases finish_spec h hkept r hstack hpc with ⟨-, heq, -⟩ | ⟨w, k, -, hk, heq, -⟩
  · cases hs.symm.trans heq
    intro u hu
    obtain ⟨hcalled, hd⟩ := hmarks u hu
    refine ⟨hcalled, ?_⟩
    by_cases hut : u = t
    · subst hut
      simp [State.ended, Frame.isDone]
    · simpa [State.ended, Function.update_of_ne hut] using hd
  · cases hs.symm.trans heq
    intro u hu
    obtain ⟨hcalled, hd⟩ := hmarks u hu
    refine ⟨hcalled, ?_⟩
    -- The coroutine that goes on has not ended.
    have huw : u ≠ w := fun huw => by
      rw [huw, Frame.isDone, hk] at hd
      cases hd
    by_cases hut : u = t
    · subst hut
      simp [State.handedOver, setPc_frame_of_ne _ huw, State.ended, Frame.isDone]
    · simpa [State.handedOver, setPc_frame_of_ne _ huw, State.ended,
        Function.update_of_ne hut] using hd

lemma Kept.exec (h : Inv s) (hkept : Kept s) {rest : List ℕ} (hstack : s.stack = t :: rest)
    (htidy : Tidy s .exec = true) (hs : s.exec = some s') : Kept s' := by
  obtain ⟨body, hpc⟩ := (h.onStack t).mp (by rw [hstack]; exact List.mem_cons_self)
  have hd : (s.frame t).isDone = false := Frame.isDone_of_running hpc
  have hne : ∀ u, (s.frame u).isDone = true → u ≠ t := fun u hu hut => by
    rw [hut, hd] at hu
    cases hu
  simp only [Tidy, hstack, hpc, Bool.or_eq_true, List.all_eq_true] at htidy
  cases body with
  | coReturn v =>
    simp only [State.exec, hstack, hpc] at hs
    exact hkept.finish h hstack hpc (htidy.resolve_left (by simp [Body.ends])) hs
  | throw e =>
    simp only [State.exec, hstack, hpc] at hs
    exact hkept.finish h hstack hpc (htidy.resolve_left (by simp [Body.ends])) hs
  | start child k =>
    simp only [State.exec, hstack, hpc] at hs
    cases hs
    refine hkept.mono rfl (Nat.le_succ _) fun u hu hdone => ?_
    simpa [State.call, Nat.ne_of_lt hu, Function.update_of_ne (hne u hdone)] using hdone
  | awaitIo k =>
    simp only [State.exec, hstack, hpc] at hs
    cases hs
    refine hkept.mono rfl (Nat.le_refl _) fun u _ hdone => ?_
    simpa [setPc_frame_of_ne s (hne u hdone)] using hdone
  | awaitTask i k =>
    simp only [State.exec, hstack, hpc] at hs
    split at hs
    · cases hs
      refine hkept.mono rfl (Nat.le_refl _) fun u _ hdone => ?_
      simpa [setPc_frame_of_ne s (hne u hdone)] using hdone
    · next c hi =>
      unfold State.awaitTask at hs
      split at hs
      · obtain ⟨r, -, hs⟩ := Option.bind_eq_some_iff.mp hs
        cases hs
        refine hkept.mono rfl (Nat.le_refl _) fun u _ hdone => ?_
        simpa [setPc_frame_of_ne s (hne u hdone)] using hdone
      · cases hs
        refine hkept.mono rfl (Nat.le_refl _) fun u _ hdone => ?_
        have hct : c ≠ t := Nat.ne_of_gt (h.younger t c (List.mem_of_getElem? hi)).1
        by_cases huc : u = c
        · subst huc
          simpa [setPc_frame_of_ne s hct, Frame.isDone] using hdone
        · simpa [huc, setPc_frame_of_ne s (hne u hdone)] using hdone

end State

open State

lemma step_inv {s s' : State α ε} {a : Action α ε} (h : Inv s) (hkept : Kept s)
    (hs : step s a = some s') : Inv s' := by
  cases a with
  | call body =>
    simp only [step] at hs
    split at hs
    · rw [← Option.some_inj.mp hs]
      exact h.call body
    · cases hs
  | exec =>
    cases hstack : s.stack with
    | nil =>
      simp only [step, exec, hstack] at hs
      cases hs
    | cons t rest =>
      obtain ⟨s'', hs'', hinv⟩ := exec_spec h hkept hstack
      obtain rfl : s' = s'' := Option.some_inj.mp (hs.symm.trans hs'')
      exact hinv
  | complete t res =>
    simp only [step] at hs
    split at hs
    · next hguard =>
      split at hs
      · next k hpc =>
        rw [← Option.some_inj.mp hs]
        refine h.move (by rw [hpc]; rfl) rfl (List.nodup_singleton t) fun u => ?_
        simp [hguard.1]
      · cases hs
    · cases hs

lemma step_kept {s s' : State α ε} {a : Action α ε} (h : Inv s) (hkept : Kept s)
    (htidy : Tidy s a = true) (hs : step s a = some s') : Kept s' := by
  cases a with
  | call body =>
    obtain ⟨-, hs⟩ := Option.ite_none_right_eq_some.mp hs
    cases hs
    refine hkept.mono rfl (Nat.le_succ _) fun u hu hdone => ?_
    simpa [State.call, Nat.ne_of_lt hu] using hdone
  | exec =>
    cases hstack : s.stack with
    | nil =>
      simp only [step, exec, hstack] at hs
      cases hs
    | cons t rest => exact hkept.exec h hstack htidy hs
  | complete t res =>
    obtain ⟨-, hs⟩ := Option.ite_none_right_eq_some.mp hs
    split at hs
    · next k hpc =>
      cases hs
      refine hkept.mono rfl (Nat.le_refl _) fun u _ hdone => ?_
      have hut : u ≠ t := fun hut => by
        rw [hut, Frame.isDone, hpc] at hdone
        cases hdone
      simpa [setPc_frame_of_ne s hut] using hdone
    · cases hs

end Coring.AsyncTask
