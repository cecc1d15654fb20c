import Coring.Skiplist.Check

/-!
# The end of a list

The head of a `skiplist_map` is a member of the map; every other node, the sentinel at the end
included, comes from the allocator.  `~SkiplistImpl` of `include/coring/detail/skiplist_map.hpp`
follows the lowest level from the head on and gives back what it meets.

A node that a removal has unlinked is given back by the removal, and one that the lowest level
still reaches is given back here; `run_destructor` says that over the life of a list this is every
node the allocator has handed out, each once, whatever the operations were.
-/

namespace Coring.Skiplist

variable {κ ν : Type} [LinearOrder κ]

/-! ## The destructor -/

/-- `destroy`. -/
def destroy : ℕ → Skiplist κ ν → Option Addr → Option (Skiplist κ ν)
  | _, s, none => some s
  | 0, _, some _ => none
  | fuel + 1, s, some first => do
      let nx ← s.next first 0
      let s ← s.deallocate first
      destroy fuel s nx

/-- `~SkiplistImpl`. -/
def destructor (s : Skiplist κ ν) : Option (Skiplist κ ν) := do
  destroy s.fuel s (← s.next headAddr 0)

/-! ## What it gives back -/

variable {s : Skiplist κ ν}

omit [LinearOrder κ] in
/-- The links of the other nodes stay as they are when one is given back. -/
lemma nextOn_deallocate {s' : Skiplist κ ν} {p a : Addr} {i : ℕ} (h : s.deallocate p = some s')
    (ha : a ≠ p) : s'.nextOn i a = s.nextOn i a := by
  obtain ⟨_, -, hs'⟩ := Option.bind_eq_some_iff.mp h
  cases hs'
  simp only [nextOn, next, Function.update_of_ne ha]

omit [LinearOrder κ] in
/-- `destroy` gives back the nodes of a chain, in its order. -/
lemma destroy_spec {l : List Addr} {p : Addr} {fuel : ℕ} (htrail : Trail (s.nextOn 0) p l)
    (hnodup : (p :: l).Nodup) (hfuel : l.length < fuel) :
    ∃ s', destroy fuel s (some p) = some s' ∧ s'.freed = s.freed ++ p :: l ∧
      s'.unused = s.unused := by
  induction l generalizing s p fuel with
  | nil =>
    obtain ⟨fuel, rfl⟩ := Nat.exists_eq_add_one_of_ne_zero (Nat.ne_zero_of_lt hfuel)
    obtain ⟨nd, hnd⟩ := mem_of_nextOn htrail
    have hnext : s.next p 0 = some none := htrail
    simp only [destroy, deallocate, hnext, hnd, Option.bind_eq_bind, Option.bind_some]
    exact ⟨_, rfl, rfl, rfl⟩
  | cons q l ih =>
    obtain ⟨fuel, rfl⟩ := Nat.exists_eq_add_one_of_ne_zero (Nat.ne_zero_of_lt hfuel)
    obtain ⟨hfirst, hrest⟩ := htrail
    obtain ⟨nd, hnd⟩ := mem_of_nextOn hfirst
    obtain ⟨hp, hnodup⟩ := List.nodup_cons.mp hnodup
    have hnext : s.next p 0 = some (some q) := hfirst
    have hde : s.deallocate p = some { s with
        mem := Function.update s.mem p none, freed := s.freed ++ [p] } := by
      simp only [deallocate, hnd, Option.bind_eq_bind, Option.bind_some]
    -- The rest of the chain is still there: no node of it is the one given back.
    have hrest' := hrest.congr fun a ha => nextOn_deallocate hde fun heq => hp (heq ▸ ha)
    obtain ⟨s', hs', hfreed, hunused⟩ := ih hrest' hnodup (Nat.lt_of_succ_lt_succ hfuel)
    refine ⟨s', ?_, ?_, hunused⟩
    · simp only [destroy, hnext, hde, Option.bind_eq_bind, Option.bind_some, hs']
    · rw [hfreed, List.append_assoc, List.singleton_append]

/-! ## The life of a list -/

section Life

variable [BoundedOrder κ] [Inhabited ν] {cells : List (Cell κ ν)}

lemma Rep.destructor (h : Rep s cells [] 0) :
    ∃ s', s.destructor = some s' ∧ s'.freed = s.freed ++ (cells.map Cell.addr ++ [tailAddr]) ∧
      s'.unused = s.unused := by
  have htrail := (h.orderedTrail (i := 0) (by decide)).trail
  rw [h.lane_zero] at htrail
  have hnodup : (cells.map Cell.addr ++ [tailAddr]).Nodup := by
    have hcells := (List.nodup_cons.mp h.nodup).2
    rw [List.append_nil] at hcells
    exact (List.perm_append_singleton tailAddr _).nodup_iff.mpr hcells
  have hlen := h.length_lt_unused
  cases hl : cells.map Cell.addr ++ [tailAddr] with
  | nil => exact absurd hl (by simp)
  | cons p l =>
    rw [hl] at htrail hnodup
    have hfuel : l.length < s.fuel := by
      have hcount := congrArg List.length hl
      simp only [List.length_append, List.length_map, List.length_cons, List.length_nil] at hcount
      rw [List.length_nil] at hlen
      rw [fuel]
      omega
    obtain ⟨s', hs', hfreed, hunused⟩ := destroy_spec htrail.2 hnodup hfuel
    refine ⟨s', ?_, hfreed, hunused⟩
    have hnext : s.next headAddr 0 = some (some p) := htrail.1
    rw [Skiplist.destructor, hnext]
    exact hs'

/-- **Every node is given back, once.**  Whatever permitted operations a list has seen, its
destructor comes to its end.  What it gives back are the nodes of the list and the sentinel behind
them; together with what the operations have given back this is every address the allocator has
handed out, without repetition. -/
theorem run_destructor (ms : List (Mutation κ ν)) (h : ∀ m ∈ ms, m.Permitted) :
    ∃ s s' given, machine.run (empty : Skiplist κ ν) ms = some s ∧ s.destructor = some s' ∧
      s'.freed = s.freed ++ given ∧ given.length = s.size + 1 ∧
      (headAddr :: s'.freed).Perm (List.range s'.unused) := by
  obtain ⟨s, hs, cells, hrep, -⟩ := run_settled ms h
  obtain ⟨s', hs', hfreed, hunused⟩ := hrep.destructor
  refine ⟨s, s', _, hs, hs', hfreed, ?_, ?_⟩
  · have hsize : s.size = cells.length := hrep.length
    rw [List.length_append, List.length_map, List.length_singleton, hsize]
  · rw [hfreed, hunused]
    refine List.Perm.trans (List.Perm.cons _ ?_) hrep.account
    rw [List.append_nil]
    exact List.perm_append_comm.trans ((List.perm_append_singleton _ _).append_right _)

/-- A list of two nodes, one of them removed, and one that a sweep has inserted. -/
theorem run_destructor_swept :
    ∃ s s' given, machine.run (empty : Skiplist (Fin 9) ℕ)
        [.emplace 2 20 ⟨3, by decide⟩, .insert (5, 50) ⟨1, by decide⟩,
          .doLessEqThenPop 4 (fun _ v => [(1, v + 1, ⟨4, by decide⟩)])] = some s ∧
      s.destructor = some s' ∧ s'.freed = s.freed ++ given ∧ given.length = s.size + 1 ∧
      (headAddr :: s'.freed).Perm (List.range s'.unused) := by
  refine run_destructor _ fun m hm => ?_
  simp only [List.mem_cons, List.not_mem_nil, or_false] at hm
  rcases hm with rfl | rfl | rfl
  · trivial
  · trivial
  · exact (by decide : (4 : Fin 9) < ⊤)

end Life

end Coring.Skiplist
