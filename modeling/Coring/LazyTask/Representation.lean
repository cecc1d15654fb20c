import Coring.LazyTask.Semantics
import Mathlib.Data.List.ReduceOption
import Mathlib.Data.List.Perm.Basic
import Mathlib.Data.List.Nodup

/-!
# Frames as a stack

While a program of lazy tasks runs, its coroutines form a stack: the one that is running, the one
that awaits it, and so on down to the root.  `Rep` reads a state of the machine as such a stack.
The tasks of every coroutine on it are either not called yet or done, apart from the one that
stands above it.

The frames are accounted for once and for all: those that have been destroyed, the root, and those
that the task objects of the stack name are all the coroutines called so far, each of them once.
So what a step does to the running coroutine and to its own tasks does not show in the rest of the
stack, which is `Rep.stacked_congr`.
-/

namespace Coring.LazyTask

open AsyncTask (Result)

variable {α ε ω : Type}

/-- The coroutines that the tasks of a frame name. -/
def Frame.handles (f : Frame α ε ω) : List ℕ := f.tasks.reduceOption

/-- A task object stands for a task of a program without coroutines. -/
def SlotRep (frame : ℕ → Frame α ε ω) : Option ℕ → Slot α ε ω → Prop
  | none, .empty => True
  | some c, .lazy body => frame c = .called body
  | some c, .done r => (frame c).pc = .done ∧ (frame c).tasks = [] ∧ (frame c).result = some r
  | _, _ => False

/-- So do the task objects of a frame, but for one. -/
structure SlotsRep (frame : ℕ → Frame α ε ω) (tasks : List (Option ℕ))
    (slots : List (Slot α ε ω)) (active : Option ℕ) : Prop where
  length : tasks.length = slots.length
  slot : ∀ j h sl, some j ≠ active → tasks[j]? = some h → slots[j]? = some sl → SlotRep frame h sl

/-- A coroutine that awaits its `index`-th task. -/
structure Waiting (α ε ω : Type) where
  id : ℕ
  slots : List (Slot α ε ω)
  index : ℕ
  k : Result α ε → Body α ε ω

/-- The coroutines that await the coroutine `t`, from the one above to the root. -/
def Stacked (frame : ℕ → Frame α ε ω) : ℕ → List (Waiting α ε ω) → Prop
  | t, [] => t = 0
  | t, w :: rest =>
      (frame t).whoAwaitMe = some w.id ∧ (frame w.id).pc = .awaitingTask t w.k ∧
        (frame w.id).tasks[w.index]? = some (some t) ∧
        SlotsRep frame (frame w.id).tasks w.slots (some w.index) ∧ Stacked frame w.id rest

/-- The coroutines that the tasks of the given ones name. -/
def owned (frame : ℕ → Frame α ε ω) (ids : List ℕ) : List ℕ :=
  ids.flatMap fun t => (frame t).handles

/-- The state is the coroutine `t` with its tasks, on top of the stack. -/
structure Rep (s : State α ε ω) (t : ℕ) (slots : List (Slot α ε ω))
    (stack : List (Waiting α ε ω)) : Prop where
  slots : SlotsRep s.frame (s.frame t).tasks slots none
  stacked : Stacked s.frame t stack
  accounted : (s.destroyed ++ 0 :: owned s.frame (t :: stack.map Waiting.id)).Perm
    (List.range s.called)
  gone : ∀ c ∈ s.destroyed, (s.frame c).pc = .destroyed
  absent : ∀ c, s.called ≤ c → s.frame c = .absent

/-! ## Lists of task objects -/

lemma mem_handles {f : Frame α ε ω} {c : ℕ} : c ∈ f.handles ↔ some c ∈ f.tasks :=
  List.reduceOption_mem_iff

lemma mem_handles_of_getElem? {f : Frame α ε ω} {j c : ℕ} (h : f.tasks[j]? = some (some c)) :
    c ∈ f.handles :=
  mem_handles.mpr (List.mem_of_getElem? h)

@[simp] lemma owned_nil (frame : ℕ → Frame α ε ω) : owned frame [] = [] := rfl

@[simp] lemma owned_cons (frame : ℕ → Frame α ε ω) (t : ℕ) (ids : List ℕ) :
    owned frame (t :: ids) = (frame t).handles ++ owned frame ids := rfl

lemma owned_congr {frame frame' : ℕ → Frame α ε ω} {ids : List ℕ}
    (h : ∀ t ∈ ids, frame' t = frame t) : owned frame' ids = owned frame ids := by
  induction ids with
  | nil => rfl
  | cons t ids ih =>
    rw [owned_cons, owned_cons, h t (List.mem_cons_self ..),
      ih fun u hu => h u (List.mem_cons_of_mem _ hu)]

/-- Overwriting a task object gives its handle away for the new one. -/
lemma reduceOption_set_perm {l : List (Option ℕ)} {i : ℕ} {x : Option ℕ} (h : l[i]? = some x)
    (y : Option ℕ) :
    (y.toList ++ l.reduceOption).Perm (x.toList ++ (l.set i y).reduceOption) := by
  induction l generalizing i with
  | nil => cases h
  | cons z l ih =>
    cases i with
    | zero =>
      obtain rfl : z = x := by simpa using h
      cases z <;> cases y <;>
        simp [List.reduceOption_cons_of_some, List.reduceOption_cons_of_none, List.Perm.swap]
    | succ i =>
      have hl := ih (by simpa using h)
      cases z with
      | none => simpa using hl
      | some c =>
        simp only [List.set_cons_succ, List.reduceOption_cons_of_some]
        exact List.perm_middle.trans ((hl.cons c).trans List.perm_middle.symm)

lemma getElem?_handle_inj {l : List (Option ℕ)} (hl : l.reduceOption.Nodup) {i j c : ℕ}
    (hi : l[i]? = some (some c)) (hj : l[j]? = some (some c)) : i = j := by
  by_contra hij
  have hperm := reduceOption_set_perm hi none
  have hnodup : (c :: (l.set i none).reduceOption).Nodup := hperm.nodup_iff.mp hl
  refine (List.nodup_cons.mp hnodup).1 (List.reduceOption_mem_iff.mpr ?_)
  exact List.mem_of_getElem? (i := j) (by rw [List.getElem?_set_ne hij, hj])

/-! ## What the rest of the stack depends on -/

section

variable {frame frame' : ℕ → Frame α ε ω} {t : ℕ} {stack : List (Waiting α ε ω)}

lemma SlotRep.congr {h : Option ℕ} {sl : Slot α ε ω} (hrep : SlotRep frame h sl)
    (hsame : ∀ c, h = some c → frame' c = frame c) : SlotRep frame' h sl := by
  cases h with
  | none => cases sl <;> exact hrep
  | some c =>
    have hc := hsame c rfl
    cases sl with
    | empty => exact hrep
    | lazy body => exact hc.trans hrep
    | done r => simpa only [SlotRep, hc] using hrep

lemma SlotsRep.congr {tasks : List (Option ℕ)} {slots : List (Slot α ε ω)} {active : Option ℕ}
    (h : SlotsRep frame tasks slots active)
    (hsame : ∀ j c, some j ≠ active → tasks[j]? = some (some c) → frame' c = frame c) :
    SlotsRep frame' tasks slots active where
  length := h.length
  slot := fun j _ sl hj ht hs =>
    (h.slot j _ sl hj ht hs).congr fun c hc => hsame j c hj (by rw [ht, hc])

/-- A coroutine on the stack is the root or named by one below it, and each stands there once. -/
lemma Stacked.ids (h : Stacked frame t stack)
    (hnodup : (0 :: owned frame (stack.map Waiting.id)).Nodup) :
    (∀ x ∈ t :: stack.map Waiting.id, x ∈ 0 :: owned frame (stack.map Waiting.id)) ∧
      (t :: stack.map Waiting.id).Nodup := by
  induction stack generalizing t with
  | nil =>
    rw [Stacked] at h
    subst h
    simp
  | cons w rest ih =>
    obtain ⟨-, -, hindex, -, hrest⟩ := h
    rw [List.map_cons, owned_cons, List.nodup_cons, List.mem_append, List.nodup_append] at hnodup
    obtain ⟨hzero, -, hrestNodup, hdisjoint⟩ := hnodup
    have hmem : t ∈ (frame w.id).handles := mem_handles_of_getElem? hindex
    obtain ⟨hids, hidsNodup⟩ := ih hrest
      (List.nodup_cons.mpr ⟨fun hr => hzero (.inr hr), hrestNodup⟩)
    constructor
    · intro x hx
      rw [List.map_cons, owned_cons, List.mem_cons, List.mem_append]
      rcases List.mem_cons.mp hx with rfl | hx
      · exact .inr (.inl hmem)
      · rcases List.mem_cons.mp (hids x hx) with rfl | hx'
        · exact .inl rfl
        · exact .inr (.inr hx')
    · refine List.nodup_cons.mpr ⟨fun ht => ?_, hidsNodup⟩
      rcases List.mem_cons.mp (hids t ht) with rfl | ht'
      · exact hzero (.inl hmem)
      · exact hdisjoint t hmem t ht' rfl

/-- The stack below a coroutine depends on the frames on it, on those they name, and on nothing
of the coroutine itself but who awaits it. -/
lemma Stacked.congr (h : Stacked frame t stack)
    (hnodup : (owned frame (stack.map Waiting.id)).Nodup)
    (hids : ∀ x ∈ stack.map Waiting.id, frame' x = frame x)
    (howned : ∀ x ∈ owned frame (stack.map Waiting.id), x ≠ t → frame' x = frame x)
    (hwho : (frame' t).whoAwaitMe = (frame t).whoAwaitMe) : Stacked frame' t stack := by
  induction stack generalizing t with
  | nil => exact h
  | cons w rest ih =>
    obtain ⟨hawaits, hpc, hindex, hslots, hrest⟩ := h
    rw [List.map_cons, owned_cons, List.nodup_append] at hnodup
    obtain ⟨hhandles, hrestNodup, hdisjoint⟩ := hnodup
    have hw : frame' w.id = frame w.id := hids _ (by simp)
    have hmem : t ∈ (frame w.id).handles := mem_handles_of_getElem? hindex
    refine ⟨by rw [hwho, hawaits], by rw [hw, hpc], by rw [hw, hindex], ?_, ?_⟩
    · rw [hw]
      refine hslots.congr fun j c hj hc => howned c ?_ ?_
      · rw [List.map_cons, owned_cons, List.mem_append]
        exact .inl (mem_handles_of_getElem? hc)
      · -- The name of `t` stands in one place only.
        rintro rfl
        exact hj (congrArg some (getElem?_handle_inj hhandles hc hindex))
    · refine ih hrest hrestNodup (fun x hx => hids x ?_) (fun x hx _ => howned x ?_ ?_) (by rw [hw])
      · rw [List.map_cons]
        exact List.mem_cons_of_mem _ hx
      · rw [List.map_cons, owned_cons, List.mem_append]
        exact .inr hx
      · rintro rfl
        exact hdisjoint x hmem x hx rfl

end

namespace Rep

variable {s s' : State α ε ω} {t : ℕ} {slots : List (Slot α ε ω)} {stack : List (Waiting α ε ω)}

lemma nodup (h : Rep s t slots stack) :
    (0 :: owned s.frame (t :: stack.map Waiting.id)).Nodup :=
  (List.nodup_append.mp (h.accounted.nodup_iff.mpr List.nodup_range)).2.1

lemma lt_called (h : Rep s t slots stack) {c : ℕ}
    (hc : c ∈ 0 :: owned s.frame (t :: stack.map Waiting.id)) : c < s.called :=
  List.mem_range.mp (h.accounted.mem_iff.mp (List.mem_append_right _ hc))

lemma nodup_below (h : Rep s t slots stack) :
    (0 :: owned s.frame (stack.map Waiting.id)).Nodup := by
  have hnodup := h.nodup
  rw [owned_cons, List.nodup_cons, List.mem_append, List.nodup_append] at hnodup
  exact List.nodup_cons.mpr ⟨fun hc => hnodup.1 (.inr hc), hnodup.2.2.1⟩

/-- What the running coroutine names is not named below it, nor on the stack. -/
lemma handle_ne (h : Rep s t slots stack) {c : ℕ} (hc : c ∈ (s.frame t).handles) :
    c ≠ t ∧ c ∉ stack.map Waiting.id ∧ c ∉ owned s.frame (stack.map Waiting.id) := by
  have hnodup := h.nodup
  rw [owned_cons, List.nodup_cons, List.mem_append, List.nodup_append] at hnodup
  obtain ⟨hzero, -, -, hdisjoint⟩ := hnodup
  have hnotOwned : c ∉ owned s.frame (stack.map Waiting.id) :=
    fun hmem => hdisjoint c hc c hmem rfl
  have hnotId : c ∉ t :: stack.map Waiting.id := fun hmem => by
    rcases List.mem_cons.mp ((h.stacked.ids h.nodup_below).1 c hmem) with rfl | hmem'
    · exact hzero (.inl hc)
    · exact hnotOwned hmem'
  exact ⟨fun heq => hnotId (heq ▸ List.mem_cons_self ..),
    fun hmem => hnotId (List.mem_cons_of_mem _ hmem), hnotOwned⟩

/-- A step that touches the running coroutine, what it names and nothing else that has been called
leaves the rest of the stack as it is. -/
lemma stacked_congr (h : Rep s t slots stack) {frame' : ℕ → Frame α ε ω}
    (hsame : ∀ x, x ≠ t → x ∉ (s.frame t).handles → x < s.called → frame' x = s.frame x)
    (hwho : (frame' t).whoAwaitMe = (s.frame t).whoAwaitMe) :
    Stacked frame' t stack ∧
      owned frame' (stack.map Waiting.id) = owned s.frame (stack.map Waiting.id) := by
  obtain ⟨hmem, hnodup⟩ := h.stacked.ids h.nodup_below
  have hid : ∀ x ∈ stack.map Waiting.id, frame' x = s.frame x := by
    intro x hx
    refine hsame x ?_ (fun hc => (h.handle_ne hc).2.1 hx) (h.lt_called ?_)
    · rintro rfl
      exact (List.nodup_cons.mp hnodup).1 hx
    · rw [owned_cons, List.mem_cons, List.mem_append]
      rcases List.mem_cons.mp (hmem x (List.mem_cons_of_mem _ hx)) with rfl | hx'
      · exact .inl rfl
      · exact .inr (.inr hx')
  refine ⟨h.stacked.congr (List.nodup_cons.mp h.nodup_below).2 hid ?_ hwho, owned_congr hid⟩
  intro x hx hne
  refine hsame x hne (fun hc => (h.handle_ne hc).2.2 hx) (h.lt_called ?_)
  rw [owned_cons, List.mem_cons, List.mem_append]
  exact .inr (.inr hx)

/-- The stack is about frames; the rest of the state does not matter. -/
lemma of_eq (h : Rep s t slots stack) (hframe : s'.frame = s.frame) (hcalled : s'.called = s.called)
    (hdestroyed : s'.destroyed = s.destroyed) : Rep s' t slots stack := by
  obtain ⟨hslots, hstacked, haccounted, hgone, habsent⟩ := h
  refine ⟨?_, ?_, ?_, ?_, ?_⟩
  · rw [hframe]
    exact hslots
  · rw [hframe]
    exact hstacked
  · rw [hframe, hcalled, hdestroyed]
    exact haccounted
  · rw [hframe, hdestroyed]
    exact hgone
  · rw [hframe, hcalled]
    exact habsent

lemma self_lt (h : Rep s t slots stack) : t < s.called := by
  have hmem := (h.stacked.ids h.nodup_below).1 t (List.mem_cons_self ..)
  refine h.lt_called ?_
  rw [owned_cons, List.mem_cons, List.mem_append]
  rcases List.mem_cons.mp hmem with rfl | hmem'
  · exact .inl rfl
  · exact .inr (.inr hmem')

lemma not_destroyed (h : Rep s t slots stack) {c : ℕ}
    (hc : c ∈ 0 :: owned s.frame (t :: stack.map Waiting.id)) : c ∉ s.destroyed := by
  have hnodup := h.accounted.nodup_iff.mpr List.nodup_range
  exact fun hmem => (List.nodup_append.mp hnodup).2.2 c hmem c hc rfl

lemma destroyed_lt (h : Rep s t slots stack) {c : ℕ} (hc : c ∈ s.destroyed) : c < s.called :=
  List.mem_range.mp (h.accounted.mem_iff.mp (List.mem_append_left _ hc))

lemma handle_lt (h : Rep s t slots stack) {c : ℕ} (hc : c ∈ (s.frame t).handles) :
    c < s.called := by
  refine h.lt_called ?_
  rw [owned_cons, List.mem_cons, List.mem_append]
  exact .inr (.inl hc)

lemma nodup_handles (h : Rep s t slots stack) : (s.frame t).handles.Nodup := by
  have hnodup := h.nodup
  rw [owned_cons, List.nodup_cons, List.nodup_append] at hnodup
  exact hnodup.2.1

lemma handle_not_destroyed (h : Rep s t slots stack) {c : ℕ} (hc : c ∈ (s.frame t).handles) :
    c ∉ s.destroyed := by
  refine h.not_destroyed ?_
  rw [owned_cons, List.mem_cons, List.mem_append]
  exact .inr (.inl hc)

lemma self_not_destroyed (h : Rep s t slots stack) : t ∉ s.destroyed := by
  refine h.not_destroyed ?_
  have hmem := (h.stacked.ids h.nodup_below).1 t (List.mem_cons_self ..)
  rw [owned_cons, List.mem_cons, List.mem_append]
  rcases List.mem_cons.mp hmem with rfl | hmem'
  · exact .inl rfl
  · exact .inr (.inr hmem')

/-- A task that the running coroutine names is not called yet, or done. -/
lemma slot_cases (h : Rep s t slots stack) (i : ℕ) :
    (s.frame t).tasks[i]?.getD none = none ∧ slotAt slots i = .empty ∨
      ∃ c, (s.frame t).tasks[i]? = some (some c) ∧ c ∈ (s.frame t).handles ∧
        ((∃ body, slotAt slots i = .lazy body ∧ s.frame c = .called body) ∨
          ∃ r, slotAt slots i = .done r ∧ (s.frame c).pc = .done ∧ (s.frame c).tasks = [] ∧
            (s.frame c).result = some r) := by
  by_cases hi : i < (s.frame t).tasks.length
  · have hlt : i < slots.length := h.slots.length ▸ hi
    have htask := List.getElem?_eq_getElem hi
    have hslot := List.getElem?_eq_getElem hlt
    have hrep := h.slots.slot i _ _ (by rintro ⟨⟩) htask hslot
    have hat : slotAt slots i = slots[i] := by
      rw [slotAt, hslot]
      rfl
    rw [hat, htask]
    cases hc : (s.frame t).tasks[i] with
    | none =>
      rw [hc] at hrep
      cases hsl : slots[i] <;> rw [hsl] at hrep <;> first | exact .inl ⟨rfl, rfl⟩ | exact hrep.elim
    | some c =>
      rw [hc] at hrep
      refine .inr ⟨c, rfl, mem_handles.mpr (hc ▸ List.getElem_mem hi), ?_⟩
      cases hsl : slots[i] with
      | empty =>
        rw [hsl] at hrep
        exact hrep.elim
      | lazy body =>
        rw [hsl] at hrep
        exact .inl ⟨body, rfl, hrep⟩
      | done r =>
        rw [hsl] at hrep
        exact .inr ⟨r, rfl, hrep⟩
  · have hlen := h.slots.length
    refine .inl ⟨?_, ?_⟩
    · rw [List.getElem?_eq_none (by omega)]
      rfl
    · rw [slotAt, List.getElem?_eq_none (by omega)]
      rfl

end Rep

end Coring.LazyTask
