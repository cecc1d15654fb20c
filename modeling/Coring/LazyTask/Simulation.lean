import Coring.LazyTask.Representation

/-!
# The steps of the running coroutine

Each step of the machine is read on the stack of `Rep`: a coroutine that is called becomes a task
that has not been made yet, one that is awaited goes on top of the stack, and one that ends leaves
it and gives its result to the one below.  For every construct of a body there is one lemma, and
each says as well that the step exists: no null handle is resumed, no frame is used that has been
destroyed, and none is destroyed that may still be resumed.
-/

namespace Coring.LazyTask

open AsyncTask (Result)

variable {α ε ω : Type} {s s' : State α ε ω} {t : ℕ} {slots : List (Slot α ε ω)}
  {stack : List (Waiting α ε ω)}

/-! ## States on the stack -/

/-- The body runs with these tasks on top of this stack. -/
structure Running (s : State α ε ω) (t : ℕ) (body : Body α ε ω) (slots : List (Slot α ε ω))
    (stack : List (Waiting α ε ω)) : Prop where
  current : s.current = some t
  pc : (s.frame t).pc = .running body
  outcome : s.outcome = none
  rep : Rep s t slots stack

/-- It awaits an I/O operation. -/
structure Blocked (s : State α ε ω) (t : ℕ) (op : ω) (k : ℤ → Body α ε ω)
    (slots : List (Slot α ε ω)) (stack : List (Waiting α ε ω)) : Prop where
  current : s.current = none
  pc : (s.frame t).pc = .awaitingIo op k
  outcome : s.outcome = none
  rep : Rep s t slots stack

/-- The root has ended. -/
structure Ended (s : State α ε ω) (r : Result α ε) : Prop where
  current : s.current = none
  outcome : s.outcome = some r
  destroyed : s.destroyed.Perm (List.range s.called)
  gone : ∀ c, (s.frame c).pc = .destroyed

/-- A result has been given to the stack. -/
def Returned (s : State α ε ω) (r : Result α ε) : List (Waiting α ε ω) → Prop
  | [] => Ended s r
  | w :: rest => Running s w.id (w.k r) (w.slots.set w.index (.done r)) rest

/-! ## Changes of the running coroutine -/

lemma setFrame_self (s : State α ε ω) (t : ℕ) (f : Frame α ε ω) : (s.setFrame t f).frame t = f :=
  Function.update_self ..

lemma setFrame_of_ne (s : State α ε ω) {t x : ℕ} (hx : x ≠ t) (f : Frame α ε ω) :
    (s.setFrame t f).frame x = s.frame x := Function.update_of_ne hx ..

lemma setPc_self (s : State α ε ω) (t : ℕ) (pc : Pc α ε ω) :
    (s.setPc t pc).frame t = { s.frame t with pc := pc } := setFrame_self ..

lemma setPc_of_ne (s : State α ε ω) {t x : ℕ} (hx : x ≠ t) (pc : Pc α ε ω) :
    (s.setPc t pc).frame x = s.frame x := setFrame_of_ne s hx _

namespace Rep

/-- The running coroutine changes, and what it names. -/
lemma change (h : Rep s t slots stack) {slots' : List (Slot α ε ω)}
    (hsame : ∀ x, x ≠ t → x ∉ (s.frame t).handles → x < s.called → s'.frame x = s.frame x)
    (hwho : (s'.frame t).whoAwaitMe = (s.frame t).whoAwaitMe)
    (hslots : SlotsRep s'.frame (s'.frame t).tasks slots' none)
    (haccounted : (s'.destroyed ++ 0 :: ((s'.frame t).handles
      ++ owned s.frame (stack.map Waiting.id))).Perm (List.range s'.called))
    (hgone : ∀ c ∈ s'.destroyed, (s'.frame c).pc = .destroyed)
    (habsent : ∀ c, s'.called ≤ c → s'.frame c = .absent) : Rep s' t slots' stack := by
  obtain ⟨hstacked, howned⟩ := h.stacked_congr hsame hwho
  refine ⟨hslots, hstacked, ?_, hgone, habsent⟩
  rw [owned_cons, howned]
  exact haccounted

/-- It goes on to another place. -/
lemma setPc (h : Rep s t slots stack) (pc : Pc α ε ω) : Rep (s.setPc t pc) t slots stack := by
  have hframe : ∀ x, x ≠ t → (s.setPc t pc).frame x = s.frame x :=
    fun x hx => setPc_of_ne s hx pc
  refine h.change (fun x hx _ _ => hframe x hx) (by rw [setPc_self]) ?_ ?_ ?_ ?_
  · rw [setPc_self]
    refine h.slots.congr fun j c _ hc => hframe c ?_
    exact (h.handle_ne (mem_handles_of_getElem? hc)).1
  · rw [setPc_self]
    exact h.accounted
  · intro c hc
    rw [hframe c fun heq => h.self_not_destroyed (heq ▸ hc)]
    exact h.gone c hc
  · intro c hc
    rw [hframe c fun heq => absurd h.self_lt (by rw [← heq]; exact Nat.not_lt_of_le hc)]
    exact h.absent c hc

end Rep

lemma SlotsRep.concat {frame : ℕ → Frame α ε ω} {tasks : List (Option ℕ)}
    (h : SlotsRep frame tasks slots none) {o : Option ℕ} {sl : Slot α ε ω}
    (hrep : SlotRep frame o sl) : SlotsRep frame (tasks ++ [o]) (slots ++ [sl]) none where
  length := by rw [List.length_append, List.length_append, h.length, List.length_singleton,
    List.length_singleton]
  slot := by
    intro j o' sl' hj ho' hsl'
    rw [List.getElem?_append] at ho' hsl'
    rw [← h.length] at hsl'
    split at ho'
    · next hlt =>
      rw [if_pos hlt] at hsl'
      exact h.slot j o' sl' hj ho' hsl'
    · next hlt =>
      rw [if_neg hlt] at hsl'
      rw [List.getElem?_singleton] at ho' hsl'
      split at ho'
      · next hzero =>
        rw [if_pos hzero, Option.some_inj] at hsl'
        rw [← Option.some_inj.mp ho', ← hsl']
        exact hrep
      · cases ho'

lemma reduceOption_concat_some (l : List (Option ℕ)) (c : ℕ) :
    (l ++ [some c]).reduceOption = l.reduceOption ++ [c] := by
  rw [List.reduceOption_append]
  rfl

lemma reduceOption_concat_none (l : List (Option ℕ)) :
    (l ++ [none]).reduceOption = l.reduceOption := by
  rw [List.reduceOption_append]
  exact List.append_nil _

lemma Running.step_eq {body : Body α ε ω} (h : Running s t body slots stack) :
    step s .exec = s.execBody t body := by
  simp only [step, State.exec, h.current, h.pc, Option.bind_eq_bind, Option.bind_some]

section

variable (h : Rep s t slots stack)

lemma create_frame_self (child k : Body α ε ω) (ht : t < s.called) :
    (s.create t child k).frame t
      = { s.frame t with pc := .running k, tasks := (s.frame t).tasks ++ [some s.called] } := by
  rw [State.create, setFrame_of_ne _ (Nat.ne_of_lt ht), setFrame_self]

lemma create_frame_of_ne (child k : Body α ε ω) {x : ℕ} (hx : x ≠ t) (hx' : x ≠ s.called) :
    (s.create t child k).frame x = s.frame x := by
  rw [State.create, setFrame_of_ne _ hx', setFrame_of_ne _ hx]

lemma create_frame_called (s : State α ε ω) (t : ℕ) (child k : Body α ε ω) :
    (s.create t child k).frame s.called = .called child := setFrame_self ..

end

namespace Running

/-- Calling a coroutine. -/
lemma create {child k : Body α ε ω} (h : Running s t (.create child k) slots stack) :
    step s .exec = some (s.create t child k) ∧
      Running (s.create t child k) t k (slots ++ [.lazy child]) stack := by
  have hlt := h.rep.self_lt
  have hself := create_frame_self child k hlt
  have hnew := create_frame_called s t child k
  refine ⟨h.step_eq, h.current, by rw [hself], h.outcome,
    h.rep.change ?_ (by rw [hself]) ?_ ?_ ?_ ?_⟩
  · exact fun x hx _ hx' => create_frame_of_ne child k hx (Nat.ne_of_lt hx')
  · rw [hself]
    refine (h.rep.slots.congr fun j c _ hc => ?_).concat hnew
    have hmem := mem_handles_of_getElem? hc
    exact create_frame_of_ne child k (h.rep.handle_ne hmem).1 (Nat.ne_of_lt (h.rep.handle_lt hmem))
  · rw [hself, Frame.handles, reduceOption_concat_some]
    show (s.destroyed ++ 0 :: _).Perm (List.range (s.called + 1))
    have haccounted := h.rep.accounted
    rw [owned_cons, Frame.handles] at haccounted
    rw [List.range_succ, List.append_assoc]
    refine List.perm_iff_count.mpr fun x => ?_
    have hx := haccounted.count_eq x
    simp only [List.count_append, List.count_cons, List.count_nil] at hx ⊢
    omega
  · intro c hc
    have hne : c ≠ t := fun heq => h.rep.self_not_destroyed (heq ▸ hc)
    rw [create_frame_of_ne child k hne (Nat.ne_of_lt (h.rep.destroyed_lt hc))]
    exact h.rep.gone c hc
  · intro c hc
    have hc' : s.called + 1 ≤ c := hc
    rw [create_frame_of_ne child k (by omega) (by omega)]
    exact h.rep.absent c (by omega)

/-- A task made by the default constructor. -/
lemma createEmpty {k : Body α ε ω} (h : Running s t (.createEmpty k) slots stack) :
    step s .exec = some (s.createEmpty t k) ∧
      Running (s.createEmpty t k) t k (slots ++ [.empty]) stack := by
  have hself : (s.createEmpty t k).frame t
      = { s.frame t with pc := .running k, tasks := (s.frame t).tasks ++ [none] } :=
    setFrame_self ..
  have hother : ∀ x, x ≠ t → (s.createEmpty t k).frame x = s.frame x :=
    fun x hx => setFrame_of_ne s hx _
  refine ⟨h.step_eq, h.current, by rw [hself], h.outcome,
    h.rep.change ?_ (by rw [hself]) ?_ ?_ ?_ ?_⟩
  · exact fun x hx _ _ => hother x hx
  · rw [hself]
    refine (h.rep.slots.congr fun j c _ hc => ?_).concat trivial
    exact hother c (h.rep.handle_ne (mem_handles_of_getElem? hc)).1
  · rw [hself, Frame.handles, reduceOption_concat_none]
    exact h.rep.accounted
  · intro c hc
    rw [hother c fun heq => h.rep.self_not_destroyed (heq ▸ hc)]
    exact h.rep.gone c hc
  · intro c hc
    have hc' : s.called ≤ c := hc
    have hlt := h.rep.self_lt
    rw [hother c (by omega)]
    exact h.rep.absent c hc

/-- The running coroutine goes on behind something it need not wait for. -/
lemma goOn {body k : Body α ε ω} (h : Running s t body slots stack) :
    Running (s.setPc t (.running k)) t k slots stack :=
  ⟨h.current, by rw [setPc_self], h.outcome, h.rep.setPc _⟩

lemma isReady {i : ℕ} {k : Bool → Body α ε ω} (h : Running s t (.isReady i k) slots stack) :
    ∃ s', step s .exec = some s' ∧ s'.trace = s.trace ∧
      Running s' t (k (slotAt slots i).isReady) slots stack := by
  rw [h.step_eq]
  refine ⟨s.setPc t (.running (k (slotAt slots i).isReady)), ?_, rfl, h.goOn⟩
  have hready : s.isReady t i = some (slotAt slots i).isReady := by
    rcases h.rep.slot_cases i with ⟨hnone, hslot⟩ | ⟨c, hc, -, hrep⟩
    · rw [State.isReady, hnone, hslot]
      rfl
    · rcases hrep with ⟨body, hslot, hframe⟩ | ⟨r, hslot, hpc, -, -⟩
      · rw [State.isReady, hc, hslot, Option.getD_some]
        simp only [State.isDone, hframe]
        rfl
      · rw [State.isReady, hc, hslot, Option.getD_some]
        simp only [State.isDone, hpc]
        rfl
  rw [State.execBody, hready]
  rfl

lemma awaitIo {op : ω} {k : ℤ → Body α ε ω} (h : Running s t (.awaitIo op k) slots stack) :
    ∃ s', step s .exec = some s' ∧ s'.trace = s.trace ∧ Blocked s' t op k slots stack := by
  rw [h.step_eq]
  refine ⟨_, rfl, rfl, rfl, ?_, h.outcome, (h.rep.setPc (.awaitingIo op k)).of_eq rfl rfl rfl⟩
  show ((s.setPc t (.awaitingIo op k)).frame t).pc = _
  rw [setPc_self]

/-- A task that is empty, or done, is not waited for. -/
lemma awaitReady {i : ℕ} {k : Result α ε → Body α ε ω} {r : Result α ε}
    (h : Running s t (.awaitTask i k) slots stack)
    (hi : slotAt slots i = .empty ∧ r = .error .brokenPromise ∨ slotAt slots i = .done r) :
    ∃ s', step s .exec = some s' ∧ s'.trace = s.trace ∧ Running s' t (k r) slots stack := by
  rw [h.step_eq]
  rcases h.rep.slot_cases i with
    ⟨hnone, hslot⟩ | ⟨c, hc, -, ⟨body, hslot, -⟩ | ⟨r', hslot, hpc, -, hr⟩⟩
  · obtain rfl : r = .error .brokenPromise := by
      rcases hi with ⟨-, rfl⟩ | hdone
      · rfl
      · rw [hslot] at hdone
        cases hdone
    refine ⟨s.setPc t (.running (k (.error .brokenPromise))), ?_, rfl, h.goOn⟩
    rw [State.execBody, State.awaitTask, hnone]
  · rw [hslot] at hi
    rcases hi with ⟨hempty, -⟩ | hdone
    · cases hempty
    · cases hdone
  · obtain rfl : r = r' := by
      rw [hslot] at hi
      rcases hi with ⟨hempty, -⟩ | hdone
      · cases hempty
      · cases hdone
        rfl
    refine ⟨{ s.setPc t (.running (k r)) with current := some t }, ?_, rfl, ?_⟩
    · simp only [State.execBody, State.awaitTask, hc, Option.getD_some, State.isDone, hpc,
        Option.bind_eq_bind, Option.bind_some, if_true, State.awaitResume, hr]
      rfl
    · exact ⟨rfl, h.goOn.pc, h.outcome, h.goOn.rep.of_eq rfl rfl rfl⟩

/-- A task that has not been called yet runs on top of the coroutine that awaits it. -/
lemma awaitLazy {i : ℕ} {child : Body α ε ω} {k : Result α ε → Body α ε ω}
    (h : Running s t (.awaitTask i k) slots stack) (hi : slotAt slots i = .lazy child) :
    ∃ s' c, step s .exec = some s' ∧ s'.trace = s.trace ∧
      Running s' c child [] (⟨t, slots, i, k⟩ :: stack) := by
  rw [h.step_eq]
  rcases h.rep.slot_cases i with ⟨-, hslot⟩ | ⟨c, hc, hmem, ⟨body, hslot, hframe⟩ | ⟨r', hslot, -⟩⟩
  · rw [hslot] at hi
    cases hi
  · obtain rfl : child = body := by
      rw [hslot] at hi
      cases hi
      rfl
    have hne : c ≠ t := (h.rep.handle_ne hmem).1
    -- The states on the way: the awaiting coroutine, its handle in the child, and the transfer.
    let s₁ := s.setPc t (.awaitingTask c k)
    let s₂ := s₁.setFrame c { s₁.frame c with whoAwaitMe := some t }
    let s₃ : State α ε ω := { s₂.setPc c (.running child) with current := some c }
    have hs₁ : s₁.frame c = .called child := by rw [← hframe]; exact setPc_of_ne s hne _
    have hs₂ : s₂.frame c = { Frame.called child with whoAwaitMe := some t } := by
      rw [← hs₁]
      exact setFrame_self ..
    have hchild : s₃.frame c = ⟨.running child, [], some t, none⟩ := by
      have hself : s₃.frame c = { s₂.frame c with pc := .running child } := setPc_self ..
      rw [hself, hs₂]
      rfl
    have hself : s₃.frame t = { s.frame t with pc := .awaitingTask c k } := by
      have h₁ : s₁.frame t = { s.frame t with pc := .awaitingTask c k } := setPc_self ..
      have h₂ : s₂.frame t = s₁.frame t := setFrame_of_ne _ hne.symm _
      have h₃ : s₃.frame t = s₂.frame t := setPc_of_ne _ hne.symm _
      rw [h₃, h₂, h₁]
    have hother : ∀ x, x ≠ t → x ≠ c → s₃.frame x = s.frame x := by
      intro x hx hx'
      have h₁ : s₁.frame x = s.frame x := setPc_of_ne s hx _
      have h₂ : s₂.frame x = s₁.frame x := setFrame_of_ne _ hx' _
      have h₃ : s₃.frame x = s₂.frame x := setPc_of_ne _ hx' _
      rw [h₃, h₂, h₁]
    refine ⟨s₃, c, ?_, rfl, rfl, by rw [hchild], h.outcome, ?_⟩
    · have hdone : s.isDone c = some false := by
        simp only [State.isDone, hframe]
        rfl
      have hcreated : (s₂.frame c).pc = .created child := by
        rw [hs₂]
        rfl
      simp only [State.execBody, State.awaitTask, hc, Option.getD_some, hdone,
        Option.bind_eq_bind, Option.bind_some, Bool.false_eq_true, if_false]
      show s₂.transferTo c = some s₃
      simp only [State.transferTo, hcreated, s₃]
    · obtain ⟨hstacked, howned⟩ : Stacked s₃.frame t stack ∧
          owned s₃.frame (stack.map Waiting.id) = owned s.frame (stack.map Waiting.id) :=
        h.rep.stacked_congr (fun x hx hx' _ => hother x hx fun heq => hx' (heq ▸ hmem))
          (by rw [hself])
      refine ⟨?_, ⟨?_, ?_, ?_, ?_, hstacked⟩, ?_, ?_, ?_⟩
      · rw [hchild]
        exact ⟨rfl, by simp⟩
      · rw [hchild]
      · rw [hself]
      · rw [hself]
        exact hc
      · rw [hself]
        refine ⟨h.rep.slots.length, fun j o sl hj ho hsl => ?_⟩
        refine (h.rep.slots.slot j o sl (by rintro ⟨⟩) ho hsl).congr fun c' hc' => ?_
        rw [hc'] at ho
        refine hother c' (h.rep.handle_ne (mem_handles_of_getElem? ho)).1 ?_
        rintro rfl
        exact hj (congrArg some (getElem?_handle_inj h.rep.nodup_handles ho hc))
      · have hhandles : (s₃.frame c).handles = [] := by rw [hchild]; rfl
        have hhandles' : (s₃.frame t).handles = (s.frame t).handles := by rw [hself]; rfl
        rw [List.map_cons, owned_cons, owned_cons, hhandles, hhandles', howned]
        exact h.rep.accounted
      · intro x hx
        have hxt : x ≠ t := fun heq => h.rep.self_not_destroyed (heq ▸ hx)
        have hxc : x ≠ c := fun heq => h.rep.handle_not_destroyed hmem (heq ▸ hx)
        rw [hother x hxt hxc]
        exact h.rep.gone x hx
      · intro x hx
        have hx' : s.called ≤ x := hx
        have hlt := h.rep.self_lt
        have hltc := h.rep.handle_lt hmem
        rw [hother x (by omega) (by omega)]
        exact h.rep.absent x hx'
  · rw [hslot] at hi
    cases hi

end Running

/-! ## Destroying tasks -/

/-- A frame that may be destroyed. -/
def Frame.Idle (f : Frame α ε ω) : Prop := (∃ body, f.pc = .created body) ∨ f.pc = .done

lemma Rep.idle (h : Rep s t slots stack) {c : ℕ} (hc : c ∈ (s.frame t).handles) :
    (s.frame c).Idle := by
  obtain ⟨i, hi, hget⟩ := List.getElem_of_mem (mem_handles.mp hc)
  have hget' : (s.frame t).tasks[i]? = some (some c) := by rw [List.getElem?_eq_getElem hi, hget]
  rcases h.slot_cases i with ⟨hnone, -⟩ | ⟨c', hc', -, ⟨body, -, hframe⟩ | ⟨r, -, hpc, -⟩⟩
  · rw [hget'] at hnone
    cases hnone
  · rw [hget'] at hc'
    cases hc'
    exact .inl ⟨body, by rw [hframe]; rfl⟩
  · rw [hget'] at hc'
    cases hc'
    exact .inr hpc

lemma destroyTask_of_idle {c : ℕ} (h : (s.frame c).Idle) :
    s.destroyTask (some c) = some (s.destroyFrame c) := by
  rcases h with ⟨body, hpc⟩ | hpc <;> simp only [State.destroyTask, hpc]

/-- The state with other frames and more of them destroyed. -/
def State.withFrames (s : State α ε ω) (frame : ℕ → Frame α ε ω) (gone : List ℕ) : State α ε ω :=
  { s with frame := frame, destroyed := s.destroyed ++ gone }

lemma destroyTasks_spec (hs : List (Option ℕ)) (s : State α ε ω) (hnodup : hs.reduceOption.Nodup)
    (hidle : ∀ c ∈ hs.reduceOption, (s.frame c).Idle) :
    ∃ frame', State.destroyTasks hs s = some (s.withFrames frame' hs.reduceOption) ∧
      (∀ c ∈ hs.reduceOption, (frame' c).pc = .destroyed) ∧
      ∀ c, c ∉ hs.reduceOption → frame' c = s.frame c := by
  induction hs generalizing s with
  | nil =>
    refine ⟨s.frame, ?_, by rintro c ⟨⟩, fun _ _ => rfl⟩
    simp only [State.destroyTasks, State.withFrames, List.reduceOption_nil, List.append_nil]
  | cons o hs ih =>
    cases o with
    | none =>
      rw [List.reduceOption_cons_of_none] at hnodup hidle ⊢
      exact ih s hnodup hidle
    | some c =>
      rw [List.reduceOption_cons_of_some] at hnodup hidle ⊢
      obtain ⟨hc, hnodup⟩ := List.nodup_cons.mp hnodup
      have hother : ∀ x, x ≠ c → (s.destroyFrame c).frame x = s.frame x :=
        fun x hx => setPc_of_ne s hx _
      have hself : ((s.destroyFrame c).frame c).pc = .destroyed := by
        show ((s.setPc c .destroyed).frame c).pc = _
        rw [setPc_self]
      obtain ⟨frame', heq, hgone, hsame⟩ := ih (s.destroyFrame c) hnodup fun x hx => by
        rw [hother x fun hxc => hc (hxc ▸ hx)]
        exact hidle x (List.mem_cons_of_mem _ hx)
      refine ⟨frame', ?_, ?_, ?_⟩
      · rw [State.destroyTasks, destroyTask_of_idle (hidle c (List.mem_cons_self ..)),
          Option.bind_some, heq]
        simp only [State.withFrames, State.destroyFrame, State.setPc, State.setFrame,
          List.append_assoc, List.singleton_append]
      · intro x hx
        rcases List.mem_cons.mp hx with rfl | hx
        · rw [hsame x hc]
          exact hself
        · exact hgone x hx
      · intro x hx
        obtain ⟨hxc, hx⟩ := not_or.mp (mt List.mem_cons.mpr hx)
        rw [hsame x hx, hother x hxc]

namespace Running

/-- A coroutine ends; its locals are destroyed before its final suspend point. -/
lemma finish {body : Body α ε ω} {r : Result α ε} (h : Running s t body slots stack) :
    ∃ s', s.finish t r = some s' ∧ s'.trace = s.trace ∧ Returned s' r stack := by
  have hall := h.rep.nodup
  rw [owned_cons, List.nodup_cons, List.mem_append, List.nodup_append] at hall
  have hperm : (s.frame t).tasks.reverse.reduceOption.Perm (s.frame t).handles :=
    (List.reverse_perm _).filterMap id
  obtain ⟨frame', heq, hgone, hsame⟩ := destroyTasks_spec (s.frame t).tasks.reverse s
    (hperm.nodup_iff.mpr hall.2.1) fun c hc => h.rep.idle (hperm.mem_iff.mp hc)
  have htself : frame' t = s.frame t :=
    hsame t fun hc => (h.rep.handle_ne (hperm.mem_iff.mp hc)).1 rfl
  let s₁ := s.withFrames frame' (s.frame t).tasks.reverse.reduceOption
  let s₂ := s₁.setFrame t { s₁.frame t with pc := .done, tasks := [], result := some r }
  have hself : s₂.frame t = ⟨.done, [], (s.frame t).whoAwaitMe, some r⟩ := by
    have h₂ : s₂.frame t = { frame' t with pc := .done, tasks := [], result := some r } :=
      setFrame_self ..
    rw [h₂, htself]
  have hother : ∀ x, x ≠ t → x ∉ (s.frame t).handles → s₂.frame x = s.frame x := by
    intro x hx hx'
    have h₂ : s₂.frame x = frame' x := setFrame_of_ne s₁ hx _
    rw [h₂, hsame x fun hmem => hx' (hperm.mem_iff.mp hmem)]
  have hdestroyed : ∀ x ∈ (s.frame t).handles, (s₂.frame x).pc = .destroyed := by
    intro x hx
    have h₂ : s₂.frame x = frame' x := setFrame_of_ne s₁ (h.rep.handle_ne hx).1 _
    rw [h₂]
    exact hgone x (hperm.mem_iff.mpr hx)
  have hbody : s.finish t r = if t = 0 then
      some { s₂.destroyFrame 0 with current := none, outcome := some r }
    else s₂.finalSuspend t := by
    simp only [State.finish, heq, Option.bind_eq_bind, Option.bind_some]
    rfl
  have hgone₂ : ∀ c ∈ s₂.destroyed, (s₂.frame c).pc = .destroyed := by
    intro c hc
    rcases List.mem_append.mp hc with hc | hc
    · rw [hother c (fun heq => h.rep.self_not_destroyed (heq ▸ hc)) fun hmem =>
        h.rep.handle_not_destroyed hmem hc]
      exact h.rep.gone c hc
    · exact hdestroyed c (hperm.mem_iff.mp hc)
  have habsent₂ : ∀ c, s.called ≤ c → s₂.frame c = .absent := by
    intro c hc
    have hlt := h.rep.self_lt
    rw [hother c (by omega) fun hmem => absurd (h.rep.handle_lt hmem) (by omega)]
    exact h.rep.absent c hc
  have haccounted := h.rep.accounted
  rw [owned_cons] at haccounted
  rw [hbody]
  cases stack with
  | nil =>
    have hroot : t = 0 := h.rep.stacked
    subst hroot
    refine ⟨_, if_pos rfl, rfl, rfl, rfl, ?_, ?_⟩
    · show (s.destroyed ++ (s.frame 0).tasks.reverse.reduceOption ++ [0]).Perm (List.range s.called)
      refine List.perm_iff_count.mpr fun x => ?_
      have hx := haccounted.count_eq x
      have hx' := hperm.count_eq x
      simp only [List.map_nil, owned_nil, List.append_nil, List.count_append,
        List.count_cons, List.count_nil] at hx hx' ⊢
      omega
    · intro c
      show ((s₂.setPc 0 .destroyed).frame c).pc = _
      by_cases hc : c = 0
      · rw [hc, setPc_self]
      · rw [setPc_of_ne _ hc]
        by_cases hlt : c < s.called
        · have hmem := haccounted.mem_iff.mpr (List.mem_range.mpr hlt)
          simp only [List.map_nil, owned_nil, List.append_nil, List.mem_append,
            List.mem_cons, hc, false_or] at hmem
          rcases hmem with hmem | hmem
          · exact hgone₂ c (List.mem_append_left _ hmem)
          · exact hdestroyed c hmem
        · rw [habsent₂ c (by omega)]
          rfl
  | cons w rest =>
    obtain ⟨hstacked, howned⟩ : Stacked s₂.frame t (w :: rest) ∧
        owned s₂.frame ((w :: rest).map Waiting.id) = owned s.frame ((w :: rest).map Waiting.id) :=
      h.rep.stacked_congr (fun x hx hx' _ => hother x hx hx') (by rw [hself])
    have hne : t ≠ 0 := by
      rintro rfl
      exact hall.1 (.inr (by
        rw [List.map_cons, owned_cons, List.mem_append]
        exact .inl (mem_handles_of_getElem? h.rep.stacked.2.2.1)))
    obtain ⟨hawaits, hpc, hindex, hslots, hrest⟩ := hstacked
    have hrep : Rep s₂ w.id (w.slots.set w.index (.done r)) rest := by
      refine ⟨⟨?_, ?_⟩, hrest, ?_, hgone₂, habsent₂⟩
      · rw [List.length_set]
        exact hslots.length
      · intro j o sl _ ho hsl
        rw [List.getElem?_set] at hsl
        by_cases hj : w.index = j
        · subst hj
          rw [hindex, Option.some_inj] at ho
          have hlt : w.index < w.slots.length :=
            hslots.length ▸ (List.getElem?_eq_some_iff.mp hindex).1
          rw [if_pos rfl, if_pos hlt, Option.some_inj] at hsl
          rw [← ho, ← hsl]
          exact ⟨by rw [hself], by rw [hself], by rw [hself]⟩
        · rw [if_neg hj] at hsl
          exact hslots.slot j o sl (fun heq => hj (Option.some_inj.mp heq).symm) ho hsl
      · rw [List.map_cons] at howned haccounted
        show (s.destroyed ++ (s.frame t).tasks.reverse.reduceOption
          ++ 0 :: owned s₂.frame (w.id :: rest.map Waiting.id)).Perm (List.range s.called)
        rw [howned]
        refine List.perm_iff_count.mpr fun x => ?_
        have hx := haccounted.count_eq x
        have hx' := hperm.count_eq x
        simp only [List.count_append, List.count_cons] at hx hx' ⊢
        omega
    refine ⟨{ s₂.setPc w.id (.running (w.k r)) with current := some w.id }, ?_, rfl, rfl, ?_,
      h.outcome, (hrep.setPc _).of_eq rfl rfl rfl⟩
    · rw [if_neg hne, State.finalSuspend, hawaits]
      simp only [Option.bind_eq_bind, Option.bind_some, hpc, State.awaitResume, hself]
      rfl
    · show ((s₂.setPc w.id (.running (w.k r))).frame w.id).pc = _
      rw [setPc_self]

/-- One task is moved into another, whose own coroutine goes. -/
lemma assign {i j : ℕ} {k : Body α ε ω} (h : Running s t (.assign i j k) slots stack) :
    ∃ s', step s .exec = some s' ∧ s'.trace = s.trace ∧
      Running s' t k (assignSlot slots i j) stack := by
  have hlength := h.rep.slots.length
  rw [h.step_eq, State.execBody]
  by_cases hcond : i = j ∨ (s.frame t).tasks.length ≤ i ∨ (s.frame t).tasks.length ≤ j
  · refine ⟨s.setPc t (.running k), ?_, rfl, ?_⟩
    · rw [State.assign, if_pos hcond]
      rfl
    · rw [assignSlot, if_pos (hlength ▸ hcond)]
      exact h.goOn
  have hij : i ≠ j := fun heq => hcond (.inl heq)
  have hi : i < (s.frame t).tasks.length := Nat.lt_of_not_le fun hle => hcond (.inr (.inl hle))
  have hj : j < (s.frame t).tasks.length := Nat.lt_of_not_le fun hle => hcond (.inr (.inr hle))
  have hgi := List.getElem?_eq_getElem hi
  have hgj := List.getElem?_eq_getElem hj
  -- What the assigned task has named so far: one coroutine, or none.
  have hold : ∀ c, c ∈ [(s.frame t).tasks[j]].reduceOption ↔
      (s.frame t).tasks[j]? = some (some c) := by
    intro c
    rw [List.reduceOption_mem_iff, List.mem_singleton, hgj, Option.some_inj, eq_comm]
  have hhandle : ∀ c ∈ [(s.frame t).tasks[j]].reduceOption, c ∈ (s.frame t).handles :=
    fun c hc => mem_handles_of_getElem? ((hold c).mp hc)
  obtain ⟨frame', heq, hgone, hsame⟩ := destroyTasks_spec [(s.frame t).tasks[j]] s
    (by cases (s.frame t).tasks[j] <;> simp [List.reduceOption])
    fun c hc => h.rep.idle (hhandle c hc)
  have hdestroy : s.destroyTask (s.frame t).tasks[j]
      = some (s.withFrames frame' [(s.frame t).tasks[j]].reduceOption) := by
    have hbind : State.destroyTasks [(s.frame t).tasks[j]] s
        = (s.destroyTask (s.frame t).tasks[j]).bind some := rfl
    rw [← heq, hbind, Option.bind_fun_some]
  let tasks := ((s.frame t).tasks.set j (s.frame t).tasks[i]).set i none
  let s₁ := s.withFrames frame' [(s.frame t).tasks[j]].reduceOption
  let s₂ := s₁.setFrame t { s₁.frame t with tasks := tasks }
  have htself : frame' t = s.frame t :=
    hsame t fun hc => (h.rep.handle_ne (hhandle t hc)).1 rfl
  have hself : s₂.frame t = { s.frame t with tasks := tasks } := by
    have h₂ : s₂.frame t = { frame' t with tasks := tasks } := setFrame_self ..
    rw [h₂, htself]
  have hother : ∀ x, x ≠ t → x ∉ [(s.frame t).tasks[j]].reduceOption → s₂.frame x = s.frame x := by
    intro x hx hx'
    have h₂ : s₂.frame x = frame' x := setFrame_of_ne s₁ hx _
    rw [h₂, hsame x hx']
  have hkept : ∀ n c, n ≠ j → (s.frame t).tasks[n]? = some (some c) → s₂.frame c = s.frame c := by
    intro n c hn hc
    refine hother c (h.rep.handle_ne (mem_handles_of_getElem? hc)).1 fun hmem => hn ?_
    exact getElem?_handle_inj h.rep.nodup_handles hc ((hold c).mp hmem)
  have hrep : Rep s₂ t (assignSlot slots i j) stack := by
    refine h.rep.change (fun x hx hx' _ => hother x hx fun hc => hx' (hhandle x hc))
      (by rw [hself]) ?_ ?_ ?_ ?_
    · rw [hself, assignSlot, if_neg (hlength ▸ hcond)]
      refine ⟨by simp only [tasks, List.length_set, hlength], fun n o sl hn ho hsl => ?_⟩
      simp only [tasks, List.getElem?_set, List.length_set] at ho hsl
      by_cases hni : i = n
      · subst hni
        rw [if_pos rfl, if_pos hi, Option.some_inj] at ho
        rw [if_pos rfl, if_pos (hlength ▸ hi), Option.some_inj] at hsl
        rw [← ho, ← hsl]
        trivial
      rw [if_neg hni] at ho hsl
      by_cases hnj : j = n
      · subst hnj
        rw [if_pos rfl, if_pos hj, Option.some_inj] at ho
        rw [if_pos rfl, if_pos (hlength ▸ hj), Option.some_inj] at hsl
        have hlt : i < slots.length := hlength ▸ hi
        have hat : slotAt slots i = slots[i] := by
          rw [slotAt, List.getElem?_eq_getElem hlt]
          rfl
        rw [← ho, ← hsl, hat]
        refine (h.rep.slots.slot i _ _ (by rintro ⟨⟩) hgi
          (List.getElem?_eq_getElem hlt)).congr fun c hc => hkept i c hij ?_
        rw [hgi, hc]
      · rw [if_neg hnj] at ho hsl
        refine (h.rep.slots.slot n o sl hn ho hsl).congr fun c hc => ?_
        exact hkept n c (Ne.symm hnj) (by rw [ho, hc])
    · have haccounted := h.rep.accounted
      rw [owned_cons, Frame.handles] at haccounted
      rw [hself]
      show (s.destroyed ++ [(s.frame t).tasks[j]].reduceOption
        ++ 0 :: (tasks.reduceOption ++ _)).Perm (List.range s.called)
      -- The handle that is moved is given to one task object and taken from the other.
      have hset := reduceOption_set_perm hgj (s.frame t).tasks[i]
      have hgi' : ((s.frame t).tasks.set j (s.frame t).tasks[i])[i]?
          = some (s.frame t).tasks[i] := by
        rw [List.getElem?_set_ne hij.symm, hgi]
      have hset' := reduceOption_set_perm hgi' none
      have hone : [(s.frame t).tasks[j]].reduceOption = (s.frame t).tasks[j].toList := by
        cases (s.frame t).tasks[j] <;> rfl
      refine List.perm_iff_count.mpr fun x => ?_
      have h₁ := haccounted.count_eq x
      have h₂ := hset.count_eq x
      have h₃ := hset'.count_eq x
      simp only [hone, tasks, List.count_append, List.count_cons, Option.toList_none,
        List.count_nil] at h₁ h₂ h₃ ⊢
      omega
    · intro c hc
      rcases List.mem_append.mp hc with hc | hc
      · rw [hother c (fun heq => h.rep.self_not_destroyed (heq ▸ hc)) fun hmem =>
          h.rep.handle_not_destroyed (hhandle c hmem) hc]
        exact h.rep.gone c hc
      · have h₂ : s₂.frame c = frame' c := setFrame_of_ne s₁ (h.rep.handle_ne (hhandle c hc)).1 _
        rw [h₂]
        exact hgone c hc
    · intro c hc
      have hc' : s.called ≤ c := hc
      have hlt := h.rep.self_lt
      rw [hother c (by omega) fun hmem => absurd (h.rep.handle_lt (hhandle c hmem)) (by omega)]
      exact h.rep.absent c hc'
  refine ⟨s₂.setPc t (.running k), ?_, rfl, h.current, by rw [setPc_self], h.outcome, hrep.setPc _⟩
  simp only [State.assign, if_neg hcond, hgi, hgj, Option.getD_some, hdestroy,
    Option.bind_eq_bind, Option.bind_some]
  rfl

end Running

/-! ## Completing an operation -/

/-- A coroutine that is accounted for below the top of the stack awaits a task, or is idle. -/
lemma Stacked.pc_cases {frame : ℕ → Frame α ε ω} (h : Stacked frame t stack) :
    ∀ x ∈ 0 :: owned frame (stack.map Waiting.id), x = t ∨ (frame x).Idle ∨
      ∃ c k, (frame x).pc = .awaitingTask c k := by
  induction stack generalizing t with
  | nil =>
    intro x hx
    rw [Stacked] at h
    subst h
    exact .inl (List.mem_singleton.mp hx)
  | cons w rest ih =>
    obtain ⟨-, hpc, hindex, hslots, hrest⟩ := h
    intro x hx
    rw [List.map_cons, owned_cons, List.mem_cons, List.mem_append] at hx
    have hbelow : x ∈ 0 :: owned frame (rest.map Waiting.id) →
        x = t ∨ (frame x).Idle ∨ ∃ c k, (frame x).pc = .awaitingTask c k := by
      intro hx
      rcases ih hrest x hx with rfl | hcases
      · exact .inr (.inr ⟨t, w.k, hpc⟩)
      · exact .inr hcases
    rcases hx with rfl | hx | hx
    · exact hbelow (List.mem_cons_self ..)
    · obtain ⟨n, hn, hget⟩ := List.getElem_of_mem (mem_handles.mp hx)
      have hget' := List.getElem?_eq_getElem hn
      rw [hget] at hget'
      by_cases hni : n = w.index
      · subst hni
        rw [hindex] at hget'
        cases hget'
        exact .inl rfl
      · have hlt : n < w.slots.length := hslots.length ▸ hn
        have hrep := hslots.slot n _ _ (fun heq => hni (Option.some_inj.mp heq)) hget'
          (List.getElem?_eq_getElem hlt)
        refine .inr (.inl ?_)
        cases hsl : w.slots[n] with
        | empty =>
          rw [hsl] at hrep
          exact hrep.elim
        | lazy body =>
          rw [hsl] at hrep
          exact .inl ⟨body, by rw [show frame x = .called body from hrep]; rfl⟩
        | done r =>
          rw [hsl] at hrep
          exact .inr hrep.1
    · exact hbelow (List.mem_cons_of_mem _ hx)

/-- No other coroutine awaits an operation. -/
lemma Rep.awaitingIo_unique (h : Rep s t slots stack) {u : ℕ} {op : ω} {k : ℤ → Body α ε ω}
    (hu : (s.frame u).pc = .awaitingIo op k) : u = t := by
  have hidle : ¬ (s.frame u).Idle := by
    rintro (⟨body, hpc⟩ | hpc) <;> rw [hpc] at hu <;> cases hu
  have hlt : u < s.called := Nat.lt_of_not_le fun hle => by
    rw [h.absent u hle] at hu
    cases hu
  have hmem := h.accounted.mem_iff.mpr (List.mem_range.mpr hlt)
  rw [owned_cons, List.mem_append, List.mem_cons, List.mem_append] at hmem
  have hbelow : u ∈ 0 :: owned s.frame (stack.map Waiting.id) → u = t := fun hmem => by
    rcases h.stacked.pc_cases u hmem with heq | hcase | ⟨c, k', hpc⟩
    · exact heq
    · exact absurd hcase hidle
    · rw [hpc] at hu
      cases hu
  rcases hmem with hmem | rfl | hmem | hmem
  · rw [h.gone u hmem] at hu
    cases hu
  · exact hbelow (List.mem_cons_self ..)
  · exact absurd (h.idle hmem) hidle
  · exact hbelow (List.mem_cons_of_mem _ hmem)

/-- The operation completes and the coroutine goes on with its result. -/
lemma Blocked.complete {op : ω} {k : ℤ → Body α ε ω} (h : Blocked s t op k slots stack) (res : ℤ) :
    ∃ s', step s (.complete t res) = some s' ∧ s'.trace = s.trace ++ [(op, res)] ∧
      Running s' t (k res) slots stack := by
  refine ⟨{ s.setPc t (.running (k res)) with
      current := some t, trace := s.trace ++ [(op, res)] },
    by simp only [step, h.current, h.pc], rfl, rfl, ?_, h.outcome,
    (h.rep.setPc (.running (k res))).of_eq rfl rfl rfl⟩
  show ((s.setPc t (.running (k res))).frame t).pc = _
  rw [setPc_self]

end Coring.LazyTask
