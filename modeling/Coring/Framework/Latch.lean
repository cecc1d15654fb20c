import Coring.Framework.Counting

/-!
# Latches

A latch lets one party go on when all the others are through.  It is a counter of the parties
that hold the latch.  A party gives the latch up by a decrement, and the one whose decrement takes
the counter to zero gets the baton: it alone may go on, or hand the baton over to the party that
waits for all of them.

`Latched` says that a counter and the standing of the parties agree.  Its rules are the moves of
such a protocol: to arrive, which needs somebody who still holds the latch, to release it, and to
hand the baton over.  Who has the baton knows that nobody holds the latch, and that nobody else has
the baton.
-/

namespace Coring

/-- How a party stands to a latch. -/
inductive Standing
  | holds
  | baton
  /-- Through. -/
  | out
  deriving Repr, DecidableEq

/-- The counter is the number of parties that hold the latch, and the baton is with one party
exactly when nobody holds it. -/
def Latched (count : ℕ) (parties : List Standing) : Prop :=
  parties.count .holds = count ∧ parties.count .baton = if count = 0 then 1 else 0

namespace Latched

variable {count i j : ℕ} {parties : List Standing}

lemma count_set_add {x : Standing} (hi : parties[i]? = some x) (y z : Standing) :
    (parties.set i y).count z + (if x = z then 1 else 0)
      = parties.count z + if y = z then 1 else 0 := by
  simpa only [List.count, beq_iff_eq] using countP_set_add (p := (· == z)) hi y

/-- Everybody holds the latch. -/
lemma replicate {n : ℕ} (hn : n ≠ 0) : Latched n (List.replicate n .holds) := by
  refine ⟨List.count_replicate_self, ?_⟩
  rw [if_neg hn, List.count_eq_zero]
  intro hmem
  cases (List.mem_replicate.mp hmem).2

/-- Another party arrives. -/
lemma arrive (h : Latched count parties) (hcount : count ≠ 0) :
    Latched (count + 1) (parties ++ [.holds]) := by
  obtain ⟨hholds, hbaton⟩ := h
  rw [if_neg hcount] at hbaton
  refine ⟨?_, ?_⟩
  · rw [List.count_append, hholds]
    rfl
  · rw [List.count_append, hbaton, if_neg (by omega)]
    rfl

lemma ne_zero_of_holds (h : Latched count parties) (hmem : .holds ∈ parties) : count ≠ 0 := by
  have hpos := List.count_pos_iff.mpr hmem
  rw [h.1] at hpos
  exact Nat.ne_of_gt hpos

/-- A party gives the latch up; whose decrement finds one gets the baton. -/
lemma release (h : Latched count parties) (hi : parties[i]? = some .holds) :
    Latched (count - 1) (parties.set i (if count = 1 then .baton else .out)) := by
  have hcount : count ≠ 0 := h.ne_zero_of_holds (List.mem_of_getElem? hi)
  obtain ⟨hholds, hbaton⟩ := h
  rw [if_neg hcount] at hbaton
  by_cases hone : count = 1
  · have h₁ := count_set_add hi .baton .holds
    have h₂ := count_set_add hi .baton .baton
    simp only [reduceCtorEq, if_true, if_false] at h₁ h₂
    subst hone
    exact ⟨by simpa using by omega, by simpa using by omega⟩
  · have h₁ := count_set_add hi .out .holds
    have h₂ := count_set_add hi .out .baton
    simp only [reduceCtorEq, if_true, if_false] at h₁ h₂
    rw [if_neg hone]
    refine ⟨by omega, ?_⟩
    rw [if_neg (by omega)]
    omega

/-- The baton goes from one party to another. -/
lemma handOver (h : Latched count parties) (hi : parties[i]? = some .baton)
    (hj : (parties.set i .out)[j]? = some .out) :
    Latched count ((parties.set i .out).set j .baton) := by
  have h₁ := count_set_add hi .out .holds
  have h₂ := count_set_add hi .out .baton
  have h₃ := count_set_add hj .baton .holds
  have h₄ := count_set_add hj .baton .baton
  simp only [reduceCtorEq, if_true, if_false] at h₁ h₂ h₃ h₄
  obtain ⟨hholds, hbaton⟩ := h
  exact ⟨by omega, by omega⟩

/-- Who has the baton knows that nobody holds the latch any more. -/
lemma count_eq_zero (h : Latched count parties) (hmem : .baton ∈ parties) : count = 0 := by
  by_contra hne
  have hpos := List.count_pos_iff.mpr hmem
  rw [h.2, if_neg hne] at hpos
  cases hpos

lemma not_holds (h : Latched count parties) (hmem : .baton ∈ parties) : .holds ∉ parties := by
  rw [← List.count_eq_zero, h.1]
  exact h.count_eq_zero hmem

/-- There is one baton. -/
lemma baton_unique {parties : List Standing} (h : Latched count (.baton :: parties)) :
    ∀ p ∈ parties, p = .out := by
  have hholds := h.not_holds (List.mem_cons_self ..)
  have hbaton := h.2
  rw [List.count_cons_self, if_pos (h.count_eq_zero (List.mem_cons_self ..))] at hbaton
  have hnone : .baton ∉ parties := List.count_eq_zero.mp (by omega)
  intro p hp
  cases p with
  | holds => exact absurd (List.mem_cons_of_mem _ hp) hholds
  | baton => exact absurd hp hnone
  | out => rfl

/-- While the waiting party is out, another one holds the latch or has the baton for it. -/
lemma exists_not_out {parties : List Standing} (h : Latched count (.out :: parties)) :
    ∃ p ∈ parties, p ≠ .out := by
  by_contra hall
  have hout : ∀ p ∈ parties, p = .out := fun p hp => by
    by_contra hp'
    exact hall ⟨p, hp, hp'⟩
  obtain ⟨hholds, hbaton⟩ := h
  have hnoHolds : .holds ∉ (.out :: parties : List Standing) := by
    rintro (_ | ⟨_, hmem⟩)
    cases hout _ hmem
  have hnoBaton : .baton ∉ (.out :: parties : List Standing) := by
    rintro (_ | ⟨_, hmem⟩)
    cases hout _ hmem
  rw [List.count_eq_zero.mpr hnoHolds] at hholds
  rw [List.count_eq_zero.mpr hnoBaton, ← hholds] at hbaton
  cases hbaton

/-- With the baton elsewhere the waiting party is out. -/
lemma waiting_out {parties : List Standing} {x : Standing} (h : Latched count (x :: parties))
    (hmem : .baton ∈ parties) : x = .out := by
  cases x with
  | holds => exact absurd (List.mem_cons_self ..) (h.not_holds (List.mem_cons_of_mem _ hmem))
  | baton => cases h.baton_unique _ hmem
  | out => rfl

end Latched

end Coring
