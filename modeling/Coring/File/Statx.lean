import Mathlib.Data.Int.Notation
import Coring.Framework.Machine

/-!
# The status of a file

`file_t` of `include/coring/file.hpp` asks the kernel for the status of its file when it is wanted
first, and keeps the answer: `get_statx` returns the pointer `statx_buf_` if it is set, and
otherwise allocates the struct, awaits a `statx` request that fills it, and throws `bad_file` if
the request fails.

The pointer is set before the request is awaited.  A call that comes while the request is
pending finds it, and so does every call after a request that failed, since nothing resets it; and
no second request is ever made.  The machine interleaves calls, completions in the kernel and
resumptions of the suspended calls.  `faithful_iff` says which runs hand out filled structs only.
-/

namespace Coring.Statx

variable {σ : Type*}

/-- Where a call that has made a request is. -/
inductive Request
  /-- The request, for the fields in `mask`, is with the kernel. -/
  | inFlight (mask : ℕ)
  | completed (ret : ℤ)
  /-- The call has returned or thrown. -/
  | finished
  deriving Repr, DecidableEq

/-- A file object and its calls; `σ` is what a `struct statx` holds. -/
structure State (σ : Type*) where
  /-- `statx_buf_`, and what it points to if the kernel has filled that. -/
  statxBuf : Option (Option σ)
  requests : List Request
  /-- The pointers returned so far, each as it was at the time, -/
  returned : List (Option (Option σ))
  /-- and the codes thrown, with what the object was left with. -/
  thrown : List (ℤ × Option (Option σ))
  deriving Repr, DecidableEq

/-- A new file object. -/
def start : State σ := ⟨none, [], [], []⟩

inductive Action (σ : Type*)
  /-- A call of `get_statx`, up to its first suspension. -/
  | call (mask : ℕ)
  /-- The kernel completes a request; on success it has filled the struct. -/
  | complete (i : ℕ) (ret : ℤ) (data : σ)
  /-- The call is resumed. -/
  | resume (i : ℕ)
  deriving Repr, DecidableEq

def step (s : State σ) : Action σ → Option (State σ)
  | .call mask =>
      match s.statxBuf with
      | none =>
          some { s with statxBuf := some none, requests := s.requests ++ [.inFlight mask] }
      | some buf => some { s with returned := s.returned ++ [some buf] }
  | .complete i ret data =>
      match s.requests[i]? with
      | some (.inFlight _) =>
          some { s with
            statxBuf := if ret < 0 then s.statxBuf else some (some data)
            requests := s.requests.set i (.completed ret) }
      | _ => none
  | .resume i =>
      match s.requests[i]? with
      | some (.completed ret) =>
          if ret < 0 then
            some { s with
              requests := s.requests.set i .finished
              thrown := s.thrown ++ [(-ret, s.statxBuf)] }
          else
            some { s with
              requests := s.requests.set i .finished
              returned := s.returned ++ [s.statxBuf] }
      | _ => none

def machine (σ : Type*) : Machine (State σ) (Action σ) := ⟨step⟩

/-- Every pointer returned pointed to a filled struct, and every call that failed left the object
without one, so that the next call asks the kernel again. -/
def Faithful (s : State σ) : Prop :=
  (∀ r ∈ s.returned, r.join.isSome) ∧ ∀ t ∈ s.thrown, t.2 = none

instance [DecidableEq σ] (s : State σ) : Decidable (Faithful s) :=
  inferInstanceAs (Decidable (_ ∧ _))

/-- No call is made while a struct is waiting to be filled, and no request fails. -/
def Settled (s : State σ) : Action σ → Prop
  | .call _ => ∀ buf ∈ s.statxBuf, buf.isSome
  | .complete _ _ _ => True
  | .resume i => ∀ r ∈ s.requests[i]?, ∀ ret, r = .completed ret → 0 ≤ ret

/-- A request is made for a struct, which is filled when the request has succeeded. -/
structure Inv (s : State σ) : Prop where
  allocated : s.requests ≠ [] → s.statxBuf ≠ none
  filled : ∀ ret, .completed ret ∈ s.requests → 0 ≤ ret → s.statxBuf.join.isSome

lemma inv_start : Inv (start : State σ) := ⟨fun h => absurd rfl h, fun _ h => nomatch h⟩

/-! ## What a step does -/

lemma step_call {s s' : State σ} {mask : ℕ} (h : step s (.call mask) = some s') :
    (s.statxBuf = none ∧
      s' = { s with statxBuf := some none, requests := s.requests ++ [.inFlight mask] }) ∨
    ∃ buf, s.statxBuf = some buf ∧ s' = { s with returned := s.returned ++ [some buf] } := by
  simp only [step] at h
  split at h
  · next hnone =>
    cases h
    exact .inl ⟨hnone, rfl⟩
  · next buf hbuf =>
    cases h
    exact .inr ⟨buf, hbuf, rfl⟩

lemma step_complete {s s' : State σ} {i : ℕ} {ret : ℤ} {data : σ}
    (h : step s (.complete i ret data) = some s') :
    s' = { s with
      statxBuf := if ret < 0 then s.statxBuf else some (some data)
      requests := s.requests.set i (.completed ret) } := by
  simp only [step] at h
  split at h
  · cases h
    rfl
  · cases h

lemma step_resume {s s' : State σ} {i : ℕ} (h : step s (.resume i) = some s') :
    ∃ ret, s.requests[i]? = some (.completed ret) ∧
      ((ret < 0 ∧ s' = { s with
          requests := s.requests.set i .finished
          thrown := s.thrown ++ [(-ret, s.statxBuf)] }) ∨
        (0 ≤ ret ∧ s' = { s with
          requests := s.requests.set i .finished
          returned := s.returned ++ [s.statxBuf] })) := by
  simp only [step] at h
  split at h
  · next ret hreq =>
    refine ⟨ret, hreq, ?_⟩
    split at h
    · next hneg =>
      cases h
      exact .inl ⟨hneg, rfl⟩
    · next hpos =>
      cases h
      exact .inr ⟨Int.not_lt.mp hpos, rfl⟩
  · cases h

/-- The invariant survives the end of a call. -/
lemma Inv.finish {s : State σ} (h : Inv s) (i : ℕ) {returned : List (Option (Option σ))}
    {thrown : List (ℤ × Option (Option σ))} :
    Inv ⟨s.statxBuf, s.requests.set i .finished, returned, thrown⟩ where
  allocated hne := h.allocated fun hnil => hne (by simp only [hnil, List.set_nil])
  filled ret hmem := by
    obtain hold | hnew := List.mem_or_eq_of_mem_set hmem
    · exact h.filled ret hold
    · cases hnew

lemma step_inv {s s' : State σ} {a : Action σ} (hs : Inv s) (h : step s a = some s') :
    Inv s' := by
  cases a with
  | call mask =>
    obtain ⟨hnone, rfl⟩ | ⟨buf, -, rfl⟩ := step_call h
    · have hempty : s.requests = [] := by
        by_contra hne
        exact hs.allocated hne hnone
      refine ⟨fun _ => Option.some_ne_none _, fun ret hmem => ?_⟩
      simp only [hempty, List.nil_append, List.mem_singleton] at hmem
      cases hmem
    · exact ⟨hs.allocated, hs.filled⟩
  | complete i ret data =>
    rw [step_complete h]
    constructor
    · intro hne
      have hold := hs.allocated fun hnil => hne (by simp only [hnil, List.set_nil])
      by_cases hneg : ret < 0
      · simpa only [if_pos hneg] using hold
      · simp only [if_neg hneg, ne_eq, reduceCtorEq, not_false_eq_true]
    · intro ret' hmem hpos
      by_cases hneg : ret < 0
      · simp only [if_pos hneg]
        obtain hold | hnew := List.mem_or_eq_of_mem_set hmem
        · exact hs.filled ret' hold hpos
        · cases hnew
          exact absurd hneg (Int.not_lt.mpr hpos)
      · simp only [if_neg hneg, Option.join_some, Option.isSome_some]
  | resume i =>
    obtain ⟨ret, -, ⟨-, rfl⟩ | ⟨-, rfl⟩⟩ := step_resume h
    · exact hs.finish i
    · exact hs.finish i

/-- A step keeps the property exactly when it meets the condition. -/
lemma step_faithful_iff {s s' : State σ} {a : Action σ} (hs : Inv s) (hf : Faithful s)
    (h : step s a = some s') : Faithful s' ↔ Settled s a := by
  obtain ⟨hret, hthr⟩ := hf
  cases a with
  | call mask =>
    obtain ⟨hnone, rfl⟩ | ⟨buf, hbuf, rfl⟩ := step_call h
    · simp only [Settled, hnone]
      exact iff_of_true ⟨hret, hthr⟩ (fun _ hb => nomatch hb)
    · simp only [Settled, hbuf, Option.mem_some_iff, forall_eq']
      constructor
      · rintro ⟨hall, -⟩
        exact hall (some buf) (List.mem_append_right _ (List.mem_singleton_self _))
      · intro hfilled
        refine ⟨fun r hr => ?_, hthr⟩
        obtain hold | hnew := List.mem_append.mp hr
        · exact hret r hold
        · rw [List.mem_singleton.mp hnew]
          exact hfilled
  | complete i ret data =>
    rw [step_complete h]
    exact ⟨fun _ => trivial, fun _ => ⟨hret, hthr⟩⟩
  | resume i =>
    obtain ⟨ret, hreq, hcase⟩ := step_resume h
    have hmem : .completed ret ∈ s.requests := List.mem_of_getElem? hreq
    have hcond : Settled s (.resume i) ↔ 0 ≤ ret := by
      simp only [Settled, hreq, Option.mem_some_iff, forall_eq', Request.completed.injEq]
    rw [hcond]
    obtain ⟨hneg, rfl⟩ | ⟨hpos, rfl⟩ := hcase
    · refine iff_of_false ?_ (Int.not_le.mpr hneg)
      rintro ⟨-, hall⟩
      exact hs.allocated (List.ne_nil_of_mem hmem)
        (hall _ (List.mem_append_right _ (List.mem_singleton_self _)))
    · refine iff_of_true ⟨fun r hr => ?_, hthr⟩ hpos
      obtain hold | hnew := List.mem_append.mp hr
      · exact hret r hold
      · rw [List.mem_singleton.mp hnew]
        exact hs.filled ret hmem hpos

/-- **When `get_statx` only hands out what the kernel has filled in.**  Along a run of calls on a
new object, interleaved with the completions of their requests, every returned pointer points to a
filled struct and every failed call leaves the object without one if and only if no call is made
while a struct is waiting to be filled and no request fails. -/
theorem faithful_iff (as : List (Action σ)) :
    (machine σ).Always Faithful start as ↔ (machine σ).Each Settled start as :=
  (machine σ).always_iff_each (fun _ _ _ => step_inv)
    (fun _ _ _ hs _ hf => step_faithful_iff hs hf) as start inv_start
    ⟨fun _ h => (nomatch h), fun _ h => (nomatch h)⟩
    ((machine σ).each_of_forall (fun _ _ => trivial) _ _)

/-- A request fails, and the next call returns the struct that nobody has filled. -/
theorem unfilled_after_failure :
    ¬ (machine ℕ).Always Faithful start
      [.call 0x7ff, .complete 0 (-9) 0, .resume 0, .call 0x7ff] := by
  decide

end Coring.Statx
