import Coring.Skiplist.Invariant
import Coring.Skiplist.Refinement

/-!
# Sweeps whose callback inserts

`do_less_eq_then_pop` invokes its callback while the swept nodes are detached but not freed, and
while `max_level_` and `length_` still count them; the callback may insert into the same list, below
the swept key as well as above it.  The lemmas on the loop carry the insertions along
(`sweep_spec`); here they are put together for a whole call on a map that any run has left.

A callback that inserts nothing makes the loop the one of `pop_less_eq`, step by step
(`doLessEqThenPop_nothing`).
-/

namespace Coring.Skiplist

variable {κ ν : Type} [LinearOrder κ]

lemma sweep_nothing : ∀ (fuel : ℕ) (s : Skiplist κ ν) (cur : Option Addr) (visited : List ν),
    sweep (fun _ _ => []) fuel s cur visited = drain fuel s cur visited
  | 0, _, none, _ => rfl
  | 0, _, some _, _ => rfl
  | _ + 1, _, none, _ => rfl
  | fuel + 1, s, some cur, visited => by
      simp only [sweep, drain, emplaceAll, Option.bind_eq_bind, Option.bind_some,
        sweep_nothing fuel]

/-- A callback that inserts nothing: the call is `pop_less_eq`. -/
lemma doLessEqThenPop_nothing (s : Skiplist κ ν) (key : κ) :
    s.doLessEqThenPop key (fun _ _ => []) = s.popLessEq key := by
  simp only [doLessEqThenPop, popLessEq, sweep_nothing]

variable [BoundedOrder κ] [Inhabited ν]

/-- **A sweep is safe under insertion from its callback.**  On a map with the content `L` that any
run has left, the callback is invoked once on each value of the longest front part with keys up to
`key`, in order; what it inserts ends up in the rest of `L`, each entry in its place, and the map is
sound. -/
theorem sweep_inserting (ms : List (Mutation κ ν)) (hms : ∀ m ∈ ms, m.Permitted)
    (s : Skiplist κ ν) (hrun : machine.run empty ms = some s) (L : List (κ × ν))
    (hL : s.entries = some L) (key : κ) (hkey : key < ⊤) (f : ℕ → ν → List (Insertion κ ν)) :
    (∃ s', s.doLessEqThenPop key f
        = some (s', (L.takeWhile fun x => x.1 ≤ key).map Prod.snd) ∧
      s'.entries = some ((insertedBy f 0 ((L.takeWhile fun x => x.1 ≤ key).map Prod.snd)).foldl
        SortedList.put (L.dropWhile fun x => x.1 ≤ key)) ∧
      (∀ L', s'.entries = some L' → s'.size = L'.length) ∧
      ∃ nodes, Sound s' nodes) ∧
    s.doLessEqThenPop key (fun _ _ => []) = s.popLessEq key := by
  refine ⟨?_, doLessEqThenPop_nothing s key⟩
  obtain ⟨t, ht, cells, hset⟩ := run_settled ms hms
  obtain rfl : t = s := Option.some_inj.mp (ht.symm.trans hrun)
  obtain rfl : contents cells = L :=
    Option.some_inj.mp ((entries_spec hset.rep).symm.trans hL)
  obtain ⟨s', cells', hs', hset', hcontents⟩ := doLessEqThenPop_spec hset hkey f
  rw [values_upTo] at hs' hcontents
  rw [contents_beyond] at hcontents
  refine ⟨s', hs', ?_, ?_, _, hset'.sound⟩
  · rw [entries_spec hset'.rep, hcontents]
  · intro L' hL'
    rw [entries_spec hset'.rep, Option.some_inj] at hL'
    rw [size, hset'.rep.length, ← hL', length_contents, Nat.add_zero]

/-- The callback inserts a tall node below the swept key and a node with the key of one that
stays. -/
theorem sweep_inserting_below_and_above :
    ∃ s s', machine.run (empty : Skiplist (Fin 9) ℕ)
        [.emplace 2 20 ⟨3, by decide⟩, .insert (5, 50) ⟨1, by decide⟩] = some s ∧
      s.doLessEqThenPop 4 (fun _ v => [(1, v + 1, ⟨4, by decide⟩), (5, v + 2, ⟨2, by decide⟩)])
        = some (s', [20]) ∧
      s'.entries = some [(1, 21), (5, 22), (5, 50)] := by
  have hpermitted : ∀ m ∈ ([.emplace 2 20 ⟨3, by decide⟩, .insert (5, 50) ⟨1, by decide⟩] :
      List (Mutation (Fin 9) ℕ)), m.Permitted := by
    intro m hm
    simp only [List.mem_cons, List.not_mem_nil, or_false] at hm
    rcases hm with rfl | rfl
    · trivial
    · trivial
  obtain ⟨⟨s', hs', hentries, -⟩, -⟩ := sweep_inserting _ hpermitted _ rfl [(2, 20), (5, 50)] rfl
    4 (by decide) fun _ v => [(1, v + 1, ⟨4, by decide⟩), (5, v + 2, ⟨2, by decide⟩)]
  exact ⟨_, s', rfl, hs', hentries⟩

end Coring.Skiplist
