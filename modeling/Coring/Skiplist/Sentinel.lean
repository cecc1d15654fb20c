import Coring.Skiplist.Invariant

/-!
# The greatest key

The tail sentinel carries the greatest key of its type, and every search relies on it to stop.
`find_prevs` and `contains` stop before the first key that is not less than the one they look for.
When that is the greatest key and no entry has it they stop before the sentinel, and take it for
an entry.  `find_upper_prevs` stops before the first key that is greater, and there is none: it goes
on past the sentinel, whose link is null.

So the functions are right for every other key, at the least one as well; at the greatest key
`pop_less_eq` and `do_less_eq_then_pop` never are, and `erase_one` and `contains` are if an entry
has it (`handled_iff`).  The maps are those that steps in this range lead to.
-/

namespace Coring.Skiplist

variable {κ ν : Type}

/-- A search that no key stops does not stop. -/
lemma walk_all (s : Skiplist κ ν) {past : κ → Bool} (h : ∀ k, past k = true) (i : ℕ) :
    ∀ (fuel : ℕ) (cur : Addr), s.walk past i fuel cur = none
  | 0, _ => rfl
  | fuel + 1, cur => by
      rw [walk]
      simp only [h, if_true, walk_all s h i fuel, Option.bind_eq_bind, Option.bind_fun_none]

variable [LinearOrder κ]

/-! ## What is asked of the functions -/

/-- An entry of the map has the key. -/
def HasKey (s : Skiplist κ ν) (key : κ) : Prop :=
  ∃ L, s.entries = some L ∧ ∃ e ∈ L, e.1 = key

/-- The call is right about the key, and it neither gives the tail back nor unlinks it: on every
level the links still lead from the head to it. -/
def ErasesOne (s : Skiplist κ ν) (key : κ) : Prop :=
  ∃ s' b, s.eraseOne key = some (s', b) ∧ (b = true → s.HasKey key) ∧ tailAddr ∉ s'.freed ∧
    ∀ i < maxLevelBound, ∃ nodes, Seg (s'.link i) headAddr nodes tailAddr

def ContainsOnly (s : Skiplist κ ν) (key : κ) : Prop :=
  ∃ b, s.contains key = some b ∧ (b = true → s.HasKey key)

/-- The key is handled like any other. -/
structure Handled (s : Skiplist κ ν) (key : κ) : Prop where
  /-- `pop_less_eq` finishes, so it follows no null link. -/
  pops : ∃ r, s.popLessEq key = some r
  /-- So does `do_less_eq_then_pop`. -/
  sweeps : ∀ f, ∃ r, s.doLessEqThenPop key f = some r
  erases : s.ErasesOne key
  contains : s.ContainsOnly key

/-- The steps that are in range in a state. -/
def Mutation.InRange [OrderTop κ] (s : Skiplist κ ν) : Mutation κ ν → Prop
  | .eraseOne key => key < ⊤ ∨ s.HasKey key
  | .popLessEq key | .doLessEqThenPop key _ => key < ⊤
  | .emplace .. | .insert .. => True

/-! ## Past the tail -/

variable [BoundedOrder κ] {s s' : Skiplist κ ν}

lemma findUpperPrevs_top (h : 1 ≤ s.maxLevel) : s.findUpperPrevs ⊤ = none := by
  obtain ⟨m, hm⟩ := Nat.exists_eq_add_of_le' h
  rw [findUpperPrevs, hm, descend, walk_all s (fun k => by simp)]
  rfl

lemma detachLessEq_top (h : 1 ≤ s.maxLevel) : s.detachLessEq ⊤ = none := by
  rw [detachLessEq, findUpperPrevs_top h]
  rfl

lemma popLessEq_top (h : 1 ≤ s.maxLevel) : s.popLessEq ⊤ = none := by
  rw [popLessEq, detachLessEq_top h]
  rfl

lemma doLessEqThenPop_top (h : 1 ≤ s.maxLevel) (f : ℕ → ν → List (Insertion κ ν)) :
    s.doLessEqThenPop ⊤ f = none := by
  rw [doLessEqThenPop, detachLessEq_top h]
  rfl

/-- A call that comes back for every other key and not for the greatest one. -/
lemma exists_eq_some_iff {ρ : Type} {g : κ → Option ρ} (htop : g ⊤ = none)
    (hlt : ∀ key < ⊤, ∃ r, g key = some r) (key : κ) : (∃ r, g key = some r) ↔ key < ⊤ := by
  refine ⟨fun ⟨r, hr⟩ => ?_, hlt key⟩
  by_contra hge
  rw [not_lt_top_iff.mp hge, htop] at hr
  cases hr

/-! ## Before the tail -/

variable [Inhabited ν] {cells : List (Cell κ ν)} {key : κ}

lemma hasKey_iff (h : Rep s cells [] 0) (key : κ) :
    s.HasKey key ↔ ∃ c ∈ cells, c.key = key := by
  rw [HasKey, entries_spec h]
  simp only [Option.some_inj, exists_eq_left', ← exists_key_contents]

/-- Without an entry that has the greatest key, the search for it stops before the tail. -/
lemma Rep.next_top (h : Rep s cells [] 0) (hnone : ¬ ∃ c ∈ cells, c.key = ⊤) :
    ∃ nd, s.next (pred (below ⊤ cells) 0) 0 = some (some tailAddr) ∧
      s.mem tailAddr = some nd ∧ nd.key = ⊤ := by
  have hall : below ⊤ cells = cells := by
    rw [below, List.takeWhile_eq_self_iff]
    intro c hc
    simpa using lt_top_iff_ne_top.mpr fun heq => hnone ⟨c, hc, heq⟩
  have h' : Rep s (cells ++ []) [] 0 := by rwa [List.append_nil]
  obtain ⟨nd, hnd, hk, -, -⟩ := mem_of_shape h.tail
  refine ⟨nd, ?_, hnd, hk⟩
  rw [hall, h'.next_pred (by decide), lane_nil]
  rfl

lemma contains_top (h : Rep s cells [] 0) (hnone : ¬ ∃ c ∈ cells, c.key = ⊤) :
    s.contains ⊤ = some true := by
  obtain ⟨nd, hnext, hnd, hk⟩ := h.next_top hnone
  rw [contains, descend_gt_spec h ⊤]
  simp only [Option.bind_eq_bind, Option.bind_some, hnext, hnd, hk, decide_true]

/-- If `erase_one` comes back at all, it claims to have erased. -/
lemma eraseOne_top (h : Rep s cells [] 0) (hnone : ¬ ∃ c ∈ cells, c.key = ⊤) {b : Bool}
    (hs : s.eraseOne ⊤ = some (s', b)) : b = true := by
  obtain ⟨nd, hnext, hnd, hk⟩ := h.next_top hnone
  have hpos : 0 < s.maxLevel := h.maxLevel.1
  rw [eraseOne, findPrevs_spec h ⊤] at hs
  simp only [Option.bind_eq_bind, Option.bind_some, if_pos hpos, hnext, hnd, hk, ne_eq,
    not_true_eq_false, if_false] at hs
  simp only [Option.bind_eq_some_iff, Option.some_inj, Prod.mk.injEq] at hs
  obtain ⟨_, _, _, _, _, hb⟩ := hs
  exact hb.symm

/-! ## In range -/

/-- The tail of a settled list has not been given back, -/
lemma Settled.tail_not_freed (h : Settled s cells) : tailAddr ∉ s.freed := by
  have hfollow : ∀ (l : List Addr) (p : Addr), Reaches s p → Seg (s.link 0) p l tailAddr →
      Reaches s tailAddr := by
    intro l
    induction l with
    | nil => exact fun p hp hseg => hp.next hseg
    | cons a l ih => exact fun p hp hseg => ih a (hp.next hseg.1) hseg.2
  exact fun hfreed => h.sound.freed _ hfreed (hfollow _ _ .head h.sound.bottom)

/-- and it is linked on every level. -/
lemma Settled.tail_linked (h : Settled s cells) {i : ℕ} (hi : i < maxLevelBound) :
    ∃ nodes, Seg (s.link i) headAddr nodes tailAddr :=
  ⟨_, h.sound.level i hi⟩

/-- A key is in range if the greatest one is said to be in the map only when it is. -/
lemma lt_top_or_hasKey (h : Rep s cells [] 0)
    (htop : key = ⊤ → (¬ ∃ c ∈ cells, c.key = ⊤) → s.HasKey key) : key < ⊤ ∨ s.HasKey key := by
  by_cases hlt : key < ⊤
  · exact .inl hlt
  · obtain rfl := not_lt_top_iff.mp hlt
    by_contra hcon
    have hnone : ¬ s.HasKey ⊤ := fun hkey => hcon (.inr hkey)
    have hcells := hnone
    rw [hasKey_iff h] at hcells
    exact hnone (htop rfl hcells)

lemma erasesOne_iff (h : Settled s cells) (key : κ) :
    s.ErasesOne key ↔ key < ⊤ ∨ s.HasKey key := by
  constructor
  · rintro ⟨s', b, hs', hb, -⟩
    refine lt_top_or_hasKey h.rep fun htop hnone => ?_
    subst htop
    exact hb (eraseOne_top h.rep hnone hs')
  · intro hkey
    rw [hasKey_iff h.rep] at hkey
    obtain ⟨s', hs', hset⟩ := eraseOne_spec h hkey
    refine ⟨s', _, hs', fun hb => ?_, hset.tail_not_freed, fun i hi => hset.tail_linked hi⟩
    exact (hasKey_iff h.rep key).mpr (of_decide_eq_true hb)

lemma containsOnly_iff (h : Settled s cells) (key : κ) :
    s.ContainsOnly key ↔ key < ⊤ ∨ s.HasKey key := by
  constructor
  · rintro ⟨b, hb, hkey⟩
    refine lt_top_or_hasKey h.rep fun htop hnone => ?_
    subst htop
    rw [contains_top h.rep hnone, Option.some_inj] at hb
    exact hkey hb.symm
  · intro hkey
    rw [hasKey_iff h.rep] at hkey
    refine ⟨_, contains_spec h.rep hkey, fun hb => ?_⟩
    exact (hasKey_iff h.rep key).mpr (of_decide_eq_true hb)

lemma handled_of_lt (h : Settled s cells) (hkey : key < ⊤) : s.Handled key where
  pops := by
    obtain ⟨s', hs', -⟩ := popLessEq_spec h hkey
    exact ⟨_, hs'⟩
  sweeps f := by
    obtain ⟨s', _, hs', -⟩ := doLessEqThenPop_spec h hkey f
    exact ⟨_, hs'⟩
  erases := (erasesOne_iff h key).mpr (.inl hkey)
  contains := (containsOnly_iff h key).mpr (.inl hkey)

/-- A step in range leaves the list settled. -/
lemma settled_step {m : Mutation κ ν} (h : ∃ cells, Settled s cells) (hm : m.InRange s)
    (hs : mutate s m = some s') : ∃ cells, Settled s' cells := by
  have hpermitted : m.Permitted → ∃ cells, Settled s' cells := by
    intro hm
    obtain ⟨t, ht, hset⟩ := mutate_settled h hm
    rw [hs, Option.some_inj] at ht
    exact ht ▸ hset
  cases m with
  | eraseOne key =>
    obtain ⟨cells, h⟩ := h
    rw [Mutation.InRange, hasKey_iff h.rep] at hm
    obtain ⟨t, ht, hset⟩ := eraseOne_spec h hm
    rw [mutate, ht, Option.map_some, Option.some_inj] at hs
    exact hs ▸ ⟨_, hset⟩
  | emplace key val level => exact hpermitted trivial
  | insert data level => exact hpermitted trivial
  | popLessEq key => exact hpermitted hm
  | doLessEqThenPop key f => exact hpermitted hm

/-- **Which keys are handled.**  In every state that steps in range lead to, a key is handled like
any other exactly if it is not the greatest one; of the four functions, `erase_one` and `contains`
are right about the greatest key if an entry has it, and the other two never come back. -/
theorem handled_iff (ms : List (Mutation κ ν))
    (hms : machine.Each (fun s m => m.InRange s) empty ms)
    (hrun : machine.run empty ms = some s) (key : κ) :
    (s.Handled key ↔ key < ⊤) ∧
    ((∃ r, s.popLessEq key = some r) ↔ key < ⊤) ∧
    (∀ f, (∃ r, s.doLessEqThenPop key f = some r) ↔ key < ⊤) ∧
    (s.ErasesOne key ↔ key < ⊤ ∨ s.HasKey key) ∧
    (s.ContainsOnly key ↔ key < ⊤ ∨ s.HasKey key) := by
  obtain ⟨cells, h⟩ := machine.run_invariant_of_each (P := fun s => ∃ cells, Settled s cells)
    (fun _ _ _ hs hm hstep => settled_step hs hm hstep) ⟨[], settled_empty⟩ hms hrun
  have hpos := h.rep.maxLevel.1
  have hpops : (∃ r, s.popLessEq key = some r) ↔ key < ⊤ :=
    exists_eq_some_iff (popLessEq_top hpos) (fun _ hlt => (handled_of_lt h hlt).pops) key
  have hsweeps : ∀ f, (∃ r, s.doLessEqThenPop key f = some r) ↔ key < ⊤ := fun f =>
    exists_eq_some_iff (doLessEqThenPop_top hpos f)
      (fun _ hlt => (handled_of_lt h hlt).sweeps f) key
  exact ⟨⟨fun hhandled => hpops.mp hhandled.pops, handled_of_lt h⟩, hpops, hsweeps,
    erasesOne_iff h key, containsOnly_iff h key⟩

/-- The greatest key in a map with an entry that has it. -/
theorem handled_iff_entry_at_top :
    ∃ s, machine.run (empty : Skiplist (Fin 9) ℕ)
        [.emplace 8 80 ⟨2, by decide⟩, .popLessEq 7] = some s ∧
      s.ContainsOnly 8 ∧ s.ErasesOne 8 ∧ ¬ s.Handled 8 := by
  have hrange : machine.Each (fun s m => m.InRange s) (empty : Skiplist (Fin 9) ℕ)
      [.emplace 8 80 ⟨2, by decide⟩, .popLessEq 7] :=
    fun _ _ => ⟨trivial, fun _ _ => ⟨show (7 : Fin 9) < ⊤ by decide, trivial⟩⟩
  have hstate : ∃ s, machine.run (empty : Skiplist (Fin 9) ℕ)
      [.emplace 8 80 ⟨2, by decide⟩, .popLessEq 7] = some s ∧ s.entries = some [(8, 80)] :=
    ⟨_, rfl, rfl⟩
  obtain ⟨s, hs, hentries⟩ := hstate
  have hkey : s.HasKey 8 := ⟨_, hentries, (8, 80), List.mem_cons_self .., rfl⟩
  obtain ⟨hhandled, -, -, herases, hcontains⟩ := handled_iff _ hrange hs 8
  exact ⟨s, hs, hcontains.mpr (.inr hkey), herases.mpr (.inr hkey),
    fun h => absurd (hhandled.mp h) (by decide)⟩

/-- The empty map is said to contain the greatest key, and popping up to it or erasing it follows a
null pointer; with a node of all levels in the map, erasing it frees the tail. -/
theorem handled_fails_at_top :
    (empty : Skiplist (Fin 9) ℕ).entries = some [] ∧
    (empty : Skiplist (Fin 9) ℕ).contains 8 = some true ∧
    ((empty : Skiplist (Fin 9) ℕ).popLessEq 8).isNone = true ∧
    ((empty : Skiplist (Fin 9) ℕ).eraseOne 8).isNone = true ∧
    (∃ s s', machine.run (empty : Skiplist (Fin 9) ℕ) [.emplace 3 30 ⟨32, by decide⟩] = some s ∧
      s.eraseOne 8 = some (s', true) ∧ s'.freed = [tailAddr]) ∧
    ¬ (empty : Skiplist (Fin 9) ℕ).Handled 8 := by
  refine ⟨rfl, rfl, rfl, rfl, ⟨_, _, rfl, rfl, rfl⟩, fun h => ?_⟩
  obtain ⟨r, hr⟩ := h.pops
  cases hr

end Coring.Skiplist
