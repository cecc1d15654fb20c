import Coring.Framework.Machine
import Coring.Skiplist.Operations
import Mathlib.Order.Fin.Basic

/-!
# The representation invariant

`Sound` says in terms of the memory alone what a skip list looks like between operations: one
chain of nodes for each level, each of them the level-0 chain restricted to the nodes that are
tall enough, in the order of their keys; the counter and the level bound exact; and every node
that ever left the list given back to the allocator once and out of reach.  It is shown to hold
after every operation of every run, the sweep whose callback inserts into the same list
included.

Reachability is by any path: a pointer followed on one level may be continued on another.
-/

namespace Coring.Skiplist

variable {κ ν : Type}

/-- Key of the node at an address. -/
def keyOf (s : Skiplist κ ν) (a : Addr) : Option κ := (s.mem a).map SkiplistNode.key

/-- Number of levels of the node at an address. -/
def levelOf (s : Skiplist κ ν) (a : Addr) : ℕ :=
  ((s.mem a).map fun nd => nd.levelNext.length).getD 0

/-- The nodes that pointers lead to from the head, on whatever levels. -/
inductive Reaches (s : Skiplist κ ν) : Addr → Prop
  | head : Reaches s headAddr
  | next {a b : Addr} {i : ℕ} : Reaches s a → s.link i a = some b → Reaches s b

/-- The nodes of a chain that stand on level `i`. -/
def chain (s : Skiplist κ ν) (nodes : List Addr) (i : ℕ) : List Addr :=
  nodes.filter fun a => i < s.levelOf a

variable [LinearOrder κ]

/-- The representation invariant, with the level-0 chain `nodes`. -/
structure Sound (s : Skiplist κ ν) (nodes : List Addr) : Prop where
  /-- On level `0` the links visit `nodes` and arrive at the tail. -/
  bottom : Seg (s.link 0) headAddr nodes tailAddr
  /-- On level `i` they visit those of them that have more than `i` levels. -/
  level : ∀ i < maxLevelBound, Seg (s.link i) headAddr (s.chain nodes i) tailAddr
  /-- The keys do not decrease along any of these chains. -/
  sorted : ∀ i < maxLevelBound, ∃ keys : List κ, (s.chain nodes i).map s.keyOf = keys.map some ∧
    keys.Pairwise (· ≤ ·)
  length : s.length = nodes.length
  /-- From the level bound on the head points to the tail. -/
  above : ∀ i, s.maxLevel ≤ i → i < maxLevelBound → s.next headAddr i = some (some tailAddr)
  tight : s.maxLevel = 1 ∨ ∃ a ∈ nodes, s.levelOf a = s.maxLevel
  /-- Every node ever allocated is in the chain, or was given back exactly once. -/
  account : ∀ a, tailAddr < a → a < s.unused →
    (a ∈ nodes ∧ s.freed.count a = 0) ∨ (a ∉ nodes ∧ s.freed.count a = 1)
  /-- What was given back is not reachable. -/
  freed : ∀ a ∈ s.freed, ¬ Reaches s a

/-! ## From the representation to the invariant -/

section

variable [BoundedOrder κ] [Inhabited ν] {s : Skiplist κ ν} {cells : List (Cell κ ν)}
variable {c : Cell κ ν} {i : ℕ}

lemma Rep.levelOf (h : Rep s cells [] 0) (hc : c ∈ cells) : s.levelOf c.addr = c.level := by
  obtain ⟨nd, hnd, -, -, hlen⟩ := mem_of_shape (h.cell c (List.mem_append_left _ hc))
  simp [Skiplist.levelOf, hnd, hlen]

lemma Rep.keyOf (h : Rep s cells [] 0) (hc : c ∈ cells) : s.keyOf c.addr = some c.key := by
  obtain ⟨nd, hnd, hk, -, -⟩ := mem_of_shape (h.cell c (List.mem_append_left _ hc))
  simp [Skiplist.keyOf, hnd, hk]

/-- The nodes of the level-0 chain on level `i`, read off the memory and off the cells. -/
lemma Rep.chain_eq_lane (h : Rep s cells [] 0) (i : ℕ) :
    s.chain (cells.map Cell.addr) i = Skiplist.lane i cells := by
  rw [chain, List.filter_map, Skiplist.lane]
  congr 1
  refine List.filter_congr fun c hc => ?_
  simp [h.levelOf hc]

lemma Rep.sorted_lane (h : Rep s cells [] 0) (i : ℕ) :
    ∃ keys : List κ, (Skiplist.lane i cells).map s.keyOf = keys.map some ∧
      keys.Pairwise (· ≤ ·) := by
  refine ⟨(cells.filter fun c => i < c.level).map Cell.key, ?_, ?_⟩
  · rw [Skiplist.lane, List.map_map, List.map_map]
    exact List.map_congr_left fun c hc => h.keyOf (List.mem_of_mem_filter hc)
  · rw [List.pairwise_map]
    exact h.sorted.sublist List.filter_sublist

/-- Pointers lead from the head to the nodes of the list and to the tail only. -/
lemma Rep.reaches (h : Rep s cells [] 0) {a : Addr} (ha : Reaches s a) :
    a ∈ headAddr :: tailAddr :: cells.map Cell.addr := by
  induction ha with
  | head => exact List.mem_cons_self ..
  | @next a b i _ hlink ih =>
    -- A link that leads somewhere belongs to a level of its node, below which the lane runs.
    have hon : a ∈ headAddr :: Skiplist.lane i cells ∧ i < maxLevelBound := by
      rcases List.mem_cons.mp ih with rfl | ih
      · exact ⟨List.mem_cons_self .., lt_of_link h.head hlink⟩
      rcases List.mem_cons.mp ih with rfl | ih
      · rw [h.tail_link i] at hlink
        cases hlink
      · obtain ⟨c, hc, rfl⟩ := List.mem_map.mp ih
        have hc' : c ∈ cells ++ [] := List.mem_append_left _ hc
        have hi := lt_of_link (h.cell c hc') hlink
        exact ⟨List.mem_cons_of_mem _ (mem_lane.mpr ⟨c, hc, hi, rfl⟩),
          Nat.lt_of_lt_of_le hi (h.level c hc').2⟩
    rcases (h.lane i hon.2).mem_of_next hon.1 hlink with hb | rfl
    · exact List.mem_cons_of_mem _ (List.mem_cons_of_mem _ ((lane_sublist i cells).subset hb))
    · exact List.mem_cons_of_mem _ (List.mem_cons_self ..)

/-- Between operations the invariant holds. -/
lemma Settled.sound (h : Settled s cells) : Sound s (cells.map Cell.addr) := by
  obtain ⟨h, ht⟩ := h
  have hnd := h.account.nodup_iff.mpr List.nodup_range
  rw [List.append_nil] at hnd
  have hfreed : ∀ a ∈ s.freed, a ∉ headAddr :: tailAddr :: cells.map Cell.addr := by
    intro a ha hmem
    rw [← List.cons_append, ← List.cons_append] at hnd
    exact List.disjoint_of_nodup_append hnd hmem ha
  constructor
  case bottom =>
    have hseg := h.lane 0 (by decide)
    rwa [h.lane_zero] at hseg
  case level =>
    intro i hi
    rw [h.chain_eq_lane]
    exact h.lane i hi
  case sorted =>
    intro i _
    rw [h.chain_eq_lane]
    exact h.sorted_lane i
  case length => rw [h.length, List.length_map, Nat.add_zero]
  case above =>
    intro i hmax hi
    exact (h.link_head_eq_tail_iff hi).mpr fun c hc => (h.level_le c hc).trans hmax
  case tight =>
    rcases ht with hone | ⟨c, hc, hlevel⟩
    · exact .inl hone
    · exact .inr ⟨c.addr, List.mem_map_of_mem hc, (h.levelOf hc).trans hlevel⟩
  case account =>
    intro a hlow hhigh
    have hmem : a ∈ headAddr :: tailAddr :: (cells.map Cell.addr ++ s.freed) := by
      have hrange := h.account.symm.subset (List.mem_range.mpr hhigh)
      rwa [List.append_nil] at hrange
    have hhead : a ≠ headAddr := fun heq => absurd hlow (by rw [heq]; decide)
    have htail : a ≠ tailAddr := hlow.ne'
    simp only [List.mem_cons, hhead, htail, false_or, List.mem_append] at hmem
    have hnd' : (cells.map Cell.addr ++ s.freed).Nodup :=
      (List.nodup_cons.mp (List.nodup_cons.mp hnd).2).2
    rcases hmem with hmem | hmem
    · refine .inl ⟨hmem, List.count_eq_zero.mpr fun hf => ?_⟩
      exact List.disjoint_of_nodup_append hnd' hmem hf
    · refine .inr ⟨fun hc => List.disjoint_of_nodup_append hnd' hc hmem, ?_⟩
      exact List.count_eq_one_of_mem hnd'.of_append_right hmem
  case freed => exact fun a ha hr => hfreed a ha (h.reaches hr)

end

/-! ## Runs -/

/-- A mutating operation.  The callback of `do_less_eq_then_pop` is given by the insertions it
makes at each of its invocations. -/
inductive Mutation (κ ν : Type)
  | emplace (key : κ) (val : ν) (level : Level)
  | insert (data : κ × ν) (level : Level)
  | eraseOne (key : κ)
  | popLessEq (key : κ)
  | doLessEqThenPop (key : κ) (f : ℕ → ν → List (Insertion κ ν))

def Mutation.Permitted [OrderTop κ] : Mutation κ ν → Prop
  | .eraseOne key | .popLessEq key | .doLessEqThenPop key _ => key < ⊤
  | .emplace .. | .insert .. => True

def mutate (s : Skiplist κ ν) : Mutation κ ν → Option (Skiplist κ ν)
  | .emplace key val level => (s.emplace key val level).map Prod.fst
  | .insert data level => (s.add data level).map Prod.fst
  | .eraseOne key => (s.eraseOne key).map Prod.fst
  | .popLessEq key => (s.popLessEq key).map Prod.fst
  | .doLessEqThenPop key f => (s.doLessEqThenPop key f).map Prod.fst

def machine : Machine (Skiplist κ ν) (Mutation κ ν) := ⟨mutate⟩

variable [BoundedOrder κ] [Inhabited ν]

lemma mutate_settled {s : Skiplist κ ν} {m : Mutation κ ν} (h : ∃ cells, Settled s cells)
    (hm : m.Permitted) : ∃ s', mutate s m = some s' ∧ ∃ cells, Settled s' cells := by
  obtain ⟨cells, h⟩ := h
  cases m with
  | emplace key val level =>
    obtain ⟨s', hs', hrep, htight⟩ := emplace_spec h.rep key val level
    exact ⟨s', by rw [mutate, hs']; rfl, _, hrep, htight h.tight⟩
  | insert data level =>
    obtain ⟨s', hs', hrep, htight⟩ := emplace_spec h.rep data.1 data.2 level
    exact ⟨s', by rw [mutate, add, hs']; rfl, _, hrep, htight h.tight⟩
  | eraseOne key =>
    obtain ⟨s', hs', h'⟩ := eraseOne_spec h (.inl hm)
    exact ⟨s', by rw [mutate, hs']; rfl, _, h'⟩
  | popLessEq key =>
    obtain ⟨s', hs', h'⟩ := popLessEq_spec h hm
    exact ⟨s', by rw [mutate, hs']; rfl, _, h'⟩
  | doLessEqThenPop key f =>
    obtain ⟨s', cells', hs', h', -⟩ := doLessEqThenPop_spec h hm f
    exact ⟨s', by rw [mutate, hs']; rfl, cells', h'⟩

/-- Every sequence of permitted operations succeeds and leaves the list settled. -/
lemma run_settled (ms : List (Mutation κ ν)) (h : ∀ m ∈ ms, m.Permitted) :
    ∃ s, machine.run (empty : Skiplist κ ν) ms = some s ∧ ∃ cells, Settled s cells :=
  machine.run_succeeds (C := Mutation.Permitted) (fun _ _ hs hm => mutate_settled hs hm)
    ⟨[], settled_empty⟩ h

/-- **The representation invariant.**  Every sequence of permitted operations on a fresh list
succeeds and leaves it sound; a sequence being arbitrary, so does every operation of it. -/
theorem run_sound (ms : List (Mutation κ ν)) (h : ∀ m ∈ ms, m.Permitted) :
    ∃ s, machine.run (empty : Skiplist κ ν) ms = some s ∧ ∃ nodes, Sound s nodes := by
  obtain ⟨s, hs, cells, hset⟩ := run_settled ms h
  exact ⟨s, hs, _, hset.sound⟩

/-- A sweep whose callback inserts a taller node below the swept key, then a removal. -/
theorem run_sound_inserting_callback :
    ∃ s, machine.run (empty : Skiplist (Fin 9) ℕ)
      [.emplace 2 20 ⟨3, by decide⟩, .insert (5, 50) ⟨1, by decide⟩,
        .doLessEqThenPop 4 (fun _ v => [(1, v + 1, ⟨4, by decide⟩)]), .eraseOne 5] = some s ∧
      ∃ nodes, Sound s nodes := by
  refine run_sound _ fun m hm => ?_
  simp only [List.mem_cons, List.not_mem_nil, or_false] at hm
  rcases hm with rfl | rfl | rfl | rfl
  · trivial
  · trivial
  · exact (by decide : (4 : Fin 9) < ⊤)
  · exact (by decide : (5 : Fin 9) < ⊤)

end Coring.Skiplist
