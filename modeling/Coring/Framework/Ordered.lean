import Mathlib.Data.List.TakeWhile

/-!
# Ordered lists

The two facts about a list in the order of some relation that its users need: where it may be
split by a test, and where an element may be put in.
-/

namespace Coring

/-- In a list sorted by a relation that the test respects, what is left behind the front part
fails the test. -/
lemma dropWhile_eq_false {β : Type*} {R : β → β → Prop} (test : β → Bool)
    (hR : ∀ a b, R a b → test b = true → test a = true) :
    ∀ {l : List β}, l.Pairwise R → ∀ b ∈ l.dropWhile test, test b = false
  | [], _, b, hb => absurd hb (by simp)
  | a :: l, hl, b, hb => by
      rw [List.pairwise_cons] at hl
      by_cases ha : test a = true
      · rw [List.dropWhile_cons_of_pos ha] at hb
        exact dropWhile_eq_false test hR hl.2 b hb
      · rw [List.dropWhile_cons_of_neg ha] at hb
        rcases List.mem_cons.mp hb with rfl | hb
        · exact Bool.eq_false_iff.mpr ha
        · exact Bool.eq_false_iff.mpr fun hb' => ha (hR a b (hl.1 b hb) hb')

/-- An element fits between two parts of an ordered list if it fits behind everything in front
and before everything behind. -/
lemma pairwise_append_cons {β : Type*} {R : β → β → Prop} {front rest : List β} {c : β}
    (h : (front ++ rest).Pairwise R) (hfront : ∀ d ∈ front, R d c) (hrest : ∀ d ∈ rest, R c d) :
    (front ++ c :: rest).Pairwise R := by
  rw [List.pairwise_append] at h
  rw [List.pairwise_append, List.pairwise_cons]
  refine ⟨h.1, ⟨hrest, h.2.1⟩, fun a ha b hb => ?_⟩
  rcases List.mem_cons.mp hb with rfl | hb
  · exact hfront a ha
  · exact h.2.2 a ha b hb

end Coring
