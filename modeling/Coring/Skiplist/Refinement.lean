import Coring.Framework.Machine
import Coring.Skiplist.Operations
import Mathlib.Order.Fin.Basic

/-!
# The skip list as a sorted list

What a `skiplist_map` is for is said here without any levels: it is a list of entries, kept in
the order of their keys, with an insertion in front of the entries that are not smaller, a
removal of the first entry with a key, and a removal of all entries up to a key.  This file
states that object (`SortedList.answer`) and shows that a map answers every sequence of calls
as it does.  The levels drawn for the nodes occur in the calls and not in the object, so no
result depends on them.

The functions `erase_one`, `pop_less_eq` and `contains` compare their argument with the key of
the tail sentinel and are called with keys below it (`Call.Permitted`).
-/

namespace Coring.Skiplist

variable {κ ν : Type} [LinearOrder κ]

/-! ## Calls and results -/

inductive Call (κ ν : Type)
  | emplace (key : κ) (val : ν) (level : Level)
  | insert (data : κ × ν) (level : Level)
  | eraseOne (key : κ)
  | popLessEq (key : κ)
  | contains (key : κ)
  | size
  /-- `for (auto &e : map)`. -/
  | iterate

inductive Result (κ ν : Type)
  /-- The entry the returned iterator points to. -/
  | entry (e : κ × ν)
  | bool (b : Bool)
  | values (vs : List ν)
  | count (n : ℕ)
  | entries (es : List (κ × ν))
  deriving DecidableEq

/-- The keys the callers may pass: those below the key of the tail sentinel, where the
function compares with it. -/
def Call.Permitted [OrderTop κ] : Call κ ν → Prop
  | .eraseOne key | .popLessEq key | .contains key => key < ⊤
  | .emplace .. | .insert .. | .size | .iterate => True

instance [OrderTop κ] : (c : Call κ ν) → Decidable c.Permitted
  | .eraseOne key | .popLessEq key | .contains key => inferInstanceAs (Decidable (key < ⊤))
  | .emplace .. | .insert .. | .size | .iterate => inferInstanceAs (Decidable True)

/-- The call with the level of a new node set to another one. -/
def Call.withLevel (level : Level) : Call κ ν → Call κ ν
  | .emplace key val _ => .emplace key val level
  | .insert data _ => .insert data level
  | c => c

/-- The entry at an address. -/
def entryAt (s : Skiplist κ ν) (p : Addr) : Option (κ × ν) := do
  let nd ← s.mem p
  some (nd.key, nd.val)

/-- A call on the map. -/
def call (s : Skiplist κ ν) : Call κ ν → Option (Skiplist κ ν × Result κ ν)
  | .emplace key val level => do
      let (s, place) ← s.emplace key val level
      some (s, .entry (← s.entryAt place))
  | .insert data level => do
      let (s, place) ← s.add data level
      some (s, .entry (← s.entryAt place))
  | .eraseOne key => do
      let (s, b) ← s.eraseOne key
      some (s, .bool b)
  | .popLessEq key => do
      let (s, vs) ← s.popLessEq key
      some (s, .values vs)
  | .contains key => do some (s, .bool (← s.contains key))
  | .size => some (s, .count s.size)
  | .iterate => do some (s, .entries (← s.entries))

/-! ## The object -/

namespace SortedList

/-- The same call on a list of entries. -/
def answer (L : List (κ × ν)) : Call κ ν → List (κ × ν) × Result κ ν
  | .emplace key val _ => (put L (key, val), .entry (key, val))
  | .insert data _ => (put L data, .entry data)
  | .eraseOne key => (L.eraseP fun x => x.1 = key, .bool (decide (∃ x ∈ L, x.1 = key)))
  | .popLessEq key =>
      (L.dropWhile fun x => x.1 ≤ key, .values ((L.takeWhile fun x => x.1 ≤ key).map Prod.snd))
  | .contains key => (L, .bool (decide (∃ x ∈ L, x.1 = key)))
  | .size => (L, .count L.length)
  | .iterate => (L, .entries L)

lemma answer_withLevel (L : List (κ × ν)) (level : Level) (c : Call κ ν) :
    answer L (c.withLevel level) = answer L c := by
  cases c <;> rfl

lemma answers_withLevel (level : Level) : ∀ (calls : List (Call κ ν)) (L : List (κ × ν)),
    answers answer L (calls.map (Call.withLevel level)) = answers answer L calls
  | [], _ => rfl
  | c :: calls, L => by
      simp only [List.map_cons, answers, answer_withLevel, answers_withLevel level calls]

end SortedList

/-! ## The contents after a change -/

section Contents

variable {cells : List (Cell κ ν)}

lemma contents_eraseP (key : κ) : contents (cells.eraseP fun c => c.key = key)
    = (contents cells).eraseP fun x => x.1 = key := by
  rw [contents, contents, List.eraseP_map]
  rfl

lemma contents_beyond (key : κ) :
    contents (beyond key cells) = (contents cells).dropWhile fun x => x.1 ≤ key := by
  rw [contents, contents, List.dropWhile_map]
  rfl

lemma values_upTo (key : κ) : (upTo key cells).map Cell.val
    = ((contents cells).takeWhile fun x => x.1 ≤ key).map Prod.snd := by
  rw [contents, List.takeWhile_map, List.map_map]
  rfl

end Contents

/-! ## Refinement -/

variable [BoundedOrder κ] [Inhabited ν] {s : Skiplist κ ν}

/-- The map represents the list of entries. -/
def Represents (s : Skiplist κ ν) (L : List (κ × ν)) : Prop :=
  ∃ cells, Settled s cells ∧ contents cells = L

/-- An insertion between operations, with what the returned iterator points to. -/
lemma Settled.emplace {cells : List (Cell κ ν)} (h : Settled s cells) (key : κ) (val : ν)
    (level : Level) :
    ∃ s', s.emplace key val level = some (s', s.unused) ∧
      s'.entryAt s.unused = some (key, val) ∧
      Represents s' (SortedList.put (contents cells) (key, val)) := by
  obtain ⟨s', hs', hrep, htight⟩ := emplace_spec h.rep key val level
  refine ⟨s', hs', ?_, _, ⟨hrep, htight h.tight⟩, contents_inserted _⟩
  obtain ⟨nd, hnd, hk, hv, -⟩ := mem_of_shape (hrep.cell ⟨s.unused, key, val, level.1⟩
    (List.mem_append_left _ (List.mem_append_right _ (List.mem_cons_self ..))))
  simp only [entryAt, hnd, hk, hv, Option.bind_eq_bind, Option.bind_some]

lemma call_refines (L : List (κ × ν)) (c : Call κ ν) (h : Represents s L) (hc : c.Permitted) :
    ∃ s', s.call c = some (s', (SortedList.answer L c).2) ∧
      Represents s' (SortedList.answer L c).1 := by
  obtain ⟨cells, hset, rfl⟩ := h
  cases c with
  | emplace key val level =>
    obtain ⟨s', hs', hentry, hrep⟩ := hset.emplace key val level
    exact ⟨s', by simp [call, hs', hentry, SortedList.answer], hrep⟩
  | insert data level =>
    obtain ⟨s', hs', hentry, hrep⟩ := hset.emplace data.1 data.2 level
    exact ⟨s', by simp [call, add, hs', hentry, SortedList.answer], hrep⟩
  | eraseOne key =>
    obtain ⟨s', hs', hset'⟩ := eraseOne_spec hset (.inl hc)
    refine ⟨s', ?_, _, hset', contents_eraseP key⟩
    simp only [call, hs', SortedList.answer, Option.bind_eq_bind, Option.bind_some,
      exists_key_contents]
  | popLessEq key =>
    obtain ⟨s', hs', hset'⟩ := popLessEq_spec hset hc
    refine ⟨s', ?_, _, hset', contents_beyond key⟩
    simp [call, hs', SortedList.answer, values_upTo]
  | contains key =>
    refine ⟨s, ?_, cells, hset, rfl⟩
    simp only [call, contains_spec hset.rep (.inl hc), SortedList.answer, Option.bind_eq_bind,
      Option.bind_some, exists_key_contents]
  | size =>
    refine ⟨s, ?_, cells, hset, rfl⟩
    simp [call, size, hset.rep.length, SortedList.answer, length_contents]
  | iterate =>
    refine ⟨s, ?_, cells, hset, rfl⟩
    simp [call, entries_spec hset.rep, SortedList.answer]

/-- **The map is a sorted list.**  On a fresh map every sequence of permitted calls succeeds
and returns what the list of entries returns; and a sequence with the same calls in which other
levels are drawn returns the same. -/
theorem map_refines_sortedList (calls : List (Call κ ν)) (h : ∀ c ∈ calls, c.Permitted) :
    (∃ s, collect call (empty : Skiplist κ ν) calls
      = some (s, (answers SortedList.answer [] calls).2)) ∧
    ∀ calls' : List (Call κ ν), (∀ c ∈ calls', c.Permitted) →
      calls'.map (Call.withLevel ⟨1, by decide⟩) = calls.map (Call.withLevel ⟨1, by decide⟩) →
      (collect call (empty : Skiplist κ ν) calls').map Prod.snd
        = (collect call (empty : Skiplist κ ν) calls).map Prod.snd := by
  have hrun : ∀ l : List (Call κ ν), (∀ c ∈ l, c.Permitted) →
      ∃ s, collect call (empty : Skiplist κ ν) l
        = some (s, (answers SortedList.answer [] l).2) := by
    intro l hl
    obtain ⟨s, hs, -⟩ := collect_refines (R := Represents) (fun s t c => call_refines t c) l
      empty [] ⟨[], settled_empty, rfl⟩ hl
    exact ⟨s, hs⟩
  refine ⟨hrun calls h, fun calls' h' hsame => ?_⟩
  obtain ⟨s, hs⟩ := hrun calls h
  obtain ⟨s', hs'⟩ := hrun calls' h'
  rw [hs, hs', Option.map_some, Option.map_some,
    ← SortedList.answers_withLevel ⟨1, by decide⟩ calls,
    ← SortedList.answers_withLevel ⟨1, by decide⟩ calls', hsame]

/-- Equal keys, a removal, and a pop of the rest, with nodes of three different levels. -/
theorem map_refines_sortedList_equal_keys :
    ∃ s, collect call (empty : Skiplist (Fin 9) ℕ)
      [.emplace 3 30 ⟨1, by decide⟩, .insert (3, 31) ⟨4, by decide⟩, .emplace 2 20 ⟨2, by decide⟩,
        .contains 3, .eraseOne 3, .iterate, .popLessEq 5, .size]
      = some (s, [.entry (3, 30), .entry (3, 31), .entry (2, 20), .bool true, .bool true,
          .entries [(2, 20), (3, 30)], .values [20, 30], .count 0]) :=
  (map_refines_sortedList _ (by decide)).1

end Coring.Skiplist
