import Mathlib.Order.BoundedOrder.Basic
import Mathlib.Order.Lattice
import Mathlib.Logic.Function.Basic

/-!
# The skip list

This file embeds `detail::SkiplistBase` of `include/coring/detail/skiplist_map.hpp`, the
ordered multimap behind the timer queue.  A node holds its entry and a vector of successor
pointers, one for each level it takes part in; the list has a sentinel `head_` with the least
key and a sentinel `tail_` with the greatest one, both of 32 levels.

Memory is explicit.  `mem` maps the address of a live node to its contents; an access through
a null pointer, to a freed node or past the end of a node's pointer vector makes the operation
fail (`none`), so that a proof that an operation succeeds is a proof that it makes no such
access.  `head_` lives inside the list object, at `headAddr`; the constructor's allocation of
the tail sentinel is `tailAddr`; every later allocation takes the next unused address, and
`freed` records the deallocations.  Addresses are thus identities of allocations: no code path
compares a live pointer with a dangling one.

The loops that follow links take a bound on their number of steps, and fail when it is used
up.  `fuel` is the number of addresses ever handed out, which no chain without repetition
exceeds.

Keys are any bounded linear order, `⊥` and `⊤` being the template arguments `minKey` and
`maxKey` with their default values.  The level of a new node, drawn by `random_level`, is an
argument.
-/

namespace Coring

/-- The address of a node. -/
abbrev Addr := ℕ

/-- `MAX_LEVEL`. -/
def maxLevelBound : ℕ := 32

/-- The level of a new node: what `random_level` returns. -/
abbrev Level := { n : ℕ // 1 ≤ n ∧ n ≤ maxLevelBound }

/-- The loop of `random_level` from `level` on: `draw level` is the outcome of the Bernoulli
draw made at that level, and `n` levels remain below the bound. -/
def climb (draw : ℕ → Bool) : ℕ → ℕ → ℕ
  | 0, level => level
  | n + 1, level => if draw level then climb draw n (level + 1) else level

lemma climb_le (draw : ℕ → Bool) : ∀ n level, level ≤ climb draw n level ∧
    climb draw n level ≤ level + n
  | 0, level => ⟨Nat.le_refl _, Nat.le_refl _⟩
  | n + 1, level => by
      have ih := climb_le draw n (level + 1)
      rw [climb]
      split
      · omega
      · omega

/-- `random_level`. -/
def randomLevel (draw : ℕ → Bool) : Level :=
  ⟨climb draw (maxLevelBound - 1) 1, by
    have h := climb_le draw (maxLevelBound - 1) 1
    simp only [maxLevelBound] at h ⊢
    omega⟩

/-- `SkiplistNode`. -/
structure SkiplistNode (κ ν : Type) where
  key : κ
  val : ν
  levelNext : List (Option Addr)

/-- `SkiplistImpl`: the memory the list lives in, and its fields. -/
structure Skiplist (κ ν : Type) where
  mem : Addr → Option (SkiplistNode κ ν)
  /-- `max_level_`. -/
  maxLevel : ℕ
  /-- `length_`. -/
  length : ℕ
  /-- The next address the allocator hands out. -/
  unused : Addr
  /-- The addresses given back so far, in order. -/
  freed : List Addr

namespace Skiplist

def headAddr : Addr := 0
def tailAddr : Addr := 1

variable {κ ν : Type} [LinearOrder κ]

/-! ## Memory -/

/-- `p->level_next_[i]`. -/
def next (s : Skiplist κ ν) (p : Addr) (i : ℕ) : Option (Option Addr) := do
  let nd ← s.mem p
  nd.levelNext[i]?

/-- `p->level_next_[i] = q`. -/
def setNext (s : Skiplist κ ν) (p : Addr) (i : ℕ) (q : Option Addr) :
    Option (Skiplist κ ν) := do
  let nd ← s.mem p
  if i < nd.levelNext.length then
    some { s with
      mem := Function.update s.mem p (some { nd with levelNext := nd.levelNext.set i q }) }
  else none

/-- `allocate(1)` and the construction of a node of that many levels in place. -/
def allocate (s : Skiplist κ ν) (key : κ) (val : ν) (size : ℕ) : Skiplist κ ν × Addr :=
  ({ s with
      mem := Function.update s.mem s.unused (some ⟨key, val, List.replicate size none⟩)
      unused := s.unused + 1 }, s.unused)

/-- `deallocate(p, 1)`. -/
def deallocate (s : Skiplist κ ν) (p : Addr) : Option (Skiplist κ ν) := do
  let _ ← s.mem p
  some { s with mem := Function.update s.mem p none, freed := s.freed ++ [p] }

/-- `SkiplistImpl::SkiplistImpl`. -/
def empty [BoundedOrder κ] [Inhabited ν] : Skiplist κ ν where
  mem := Function.update (Function.update (fun _ => none)
    headAddr (some ⟨⊥, default, List.replicate maxLevelBound (some tailAddr)⟩))
    tailAddr (some ⟨⊤, default, List.replicate maxLevelBound none⟩)
  maxLevel := 1
  length := 0
  unused := 2
  freed := []

/-- The bound on the number of links a loop follows. -/
def fuel (s : Skiplist κ ν) : ℕ := s.unused

/-! ## Searching -/

/-- `while (past(cur->level_next_[i]->data_.first)) cur = cur->level_next_[i];` -/
def walk (s : Skiplist κ ν) (past : κ → Bool) (i : ℕ) : ℕ → Addr → Option Addr
  | 0, _ => none
  | fuel + 1, cur => do
      let q ← (← s.next cur i)
      let nd ← s.mem q
      if past nd.key then walk s past i fuel q else some cur

/-- The descent from level `n - 1` to level `0`, recording where each level was left. -/
def descend (s : Skiplist κ ν) (past : κ → Bool) :
    ℕ → Addr → (ℕ → Option Addr) → Option (Addr × (ℕ → Option Addr))
  | 0, cur, prevs => some (cur, prevs)
  | i + 1, cur, prevs => do
      let cur ← s.walk past i s.fuel cur
      descend s past i cur (Function.update prevs i (some cur))

/-- `find_prevs`: the search moves on while the key is greater than the next one. -/
def findPrevs (s : Skiplist κ ν) (key : κ) : Option (ℕ → Option Addr) := do
  let (_, prevs) ← s.descend (fun k => key > k) s.maxLevel headAddr (fun _ => none)
  some prevs

/-- `find_upper_prevs`: it moves on while the key is not less than the next one. -/
def findUpperPrevs (s : Skiplist κ ν) (key : κ) : Option (ℕ → Option Addr) := do
  let (_, prevs) ← s.descend (fun k => key ≥ k) s.maxLevel headAddr (fun _ => none)
  some prevs

def contains (s : Skiplist κ ν) (target : κ) : Option Bool := do
  let (cur, _) ← s.descend (fun k => target > k) s.maxLevel headAddr (fun _ => none)
  match ← s.next cur 0 with
  | none => some false
  | some q => do
      let nd ← s.mem q
      some (nd.key = target)

def size (s : Skiplist κ ν) : ℕ := s.length

/-- `skiplist_map::empty`. -/
def isEmpty (s : Skiplist κ ν) : Bool := s.length = 0

/-- `begin()`, the node it points to. -/
def begin (s : Skiplist κ ν) : Option (Option Addr) := s.next headAddr 0

/-- The entries met from an iterator on, up to `end()`. -/
def entriesFrom (s : Skiplist κ ν) : ℕ → Option Addr → Option (List (κ × ν))
  | 0, _ => none
  | fuel + 1, cur =>
      if cur = some tailAddr then some []
      else do
        let p ← cur
        let nd ← s.mem p
        let rest ← entriesFrom s fuel (← s.next p 0)
        some ((nd.key, nd.val) :: rest)

/-- `for (auto &e : map)`: the entries from `begin()` to `end()`. -/
def entries (s : Skiplist κ ν) : Option (List (κ × ν)) := do
  s.entriesFrom s.fuel (← s.begin)

/-! ## Inserting -/

/-- One turn of the loop that links a new node: `cur->level_next_[i] = prevs[i]->level_next_[i];
prevs[i]->level_next_[i] = cur;` -/
def linkAt (s : Skiplist κ ν) (prevs : ℕ → Option Addr) (cur : Addr) (i : ℕ) :
    Option (Skiplist κ ν) := do
  let p ← prevs i
  let s ← s.setNext cur i (← s.next p i)
  s.setNext p i (some cur)

/-- The loop over the levels `n - 1` to `0`. -/
def linkAll (prevs : ℕ → Option Addr) (cur : Addr) :
    ℕ → Skiplist κ ν → Option (Skiplist κ ν)
  | 0, s => some s
  | i + 1, s => do linkAll prevs cur i (← s.linkAt prevs cur i)

/-- `emplace`, with the level of the new node given; the address is that of the iterator
returned. -/
def emplace (s : Skiplist κ ν) (key : κ) (val : ν) (level : Level) :
    Option (Skiplist κ ν × Addr) := do
  let s := { s with length := s.length + 1 }
  let prevs ← s.findPrevs key
  let prevs := fun i =>
    if s.maxLevel ≤ i ∧ i < level.1 then some headAddr else prevs i
  let s := { s with maxLevel := max s.maxLevel level.1 }
  let (s, place) := s.allocate key val level.1
  let s ← linkAll prevs place level.1 s
  some (s, place)

/-- `add`, the function behind `insert`: the same body for a pair. -/
def add (s : Skiplist κ ν) (data : κ × ν) (level : Level) : Option (Skiplist κ ν × Addr) :=
  s.emplace data.1 data.2 level

/-! ## Removing -/

/-- The loop `prevs[i]->level_next_[i] = del->level_next_[i];` over the levels below `n`. -/
def unlinkAll (prevs : ℕ → Option Addr) (del : Addr) (s : Skiplist κ ν) :
    ℕ → Option (Skiplist κ ν)
  | 0 => some s
  | i + 1 => do
      let s ← unlinkAll prevs del s i
      let p ← prevs i
      s.setNext p i (← s.next del i)

/-- `while (max_level_ > 1 && head_.level_next_[max_level_ - 1] == tail_) max_level_--;` -/
def loweredLevel (s : Skiplist κ ν) : ℕ → ℕ
  | 0 => 0
  | 1 => 1
  | m + 2 =>
      if s.next headAddr (m + 1) = some (some tailAddr) then loweredLevel s (m + 1) else m + 2

def lowerMaxLevel (s : Skiplist κ ν) : Skiplist κ ν :=
  { s with maxLevel := s.loweredLevel s.maxLevel }

def eraseOne (s : Skiplist κ ν) (key : κ) : Option (Skiplist κ ν × Bool) := do
  let prevs ← s.findPrevs key
  let p ← prevs 0
  match ← s.next p 0 with
  | none => some (s, false)
  | some del => do
      let nd ← s.mem del
      if nd.key ≠ key then some (s, false)
      else do
        let s ← unlinkAll prevs del s nd.levelNext.length
        let s ← s.deallocate del
        let s := s.lowerMaxLevel
        some ({ s with length := s.length - 1 }, true)

/-- The loop that links the head past the nodes found and cuts them off: `head_.level_next_[i]
= prevs[i]->level_next_[i]; if (prevs[i] != &head_) prevs[i]->level_next_[i] = nullptr;` over
the levels below `n`. -/
def detachAll (prevs : ℕ → Option Addr) (s : Skiplist κ ν) : ℕ → Option (Skiplist κ ν)
  | 0 => some s
  | i + 1 => do
      let s ← detachAll prevs s i
      let p ← prevs i
      let s ← s.setNext headAddr i (← s.next p i)
      if p ≠ headAddr then s.setNext p i none else some s

/-- The common front part of `pop_less_eq` and `do_less_eq_then_pop`: the nodes with keys up
to `key` leave the list, and the first of them is returned; `none` in the second place is the
early return, when there are none. -/
def detachLessEq (s : Skiplist κ ν) (key : κ) : Option (Skiplist κ ν × Option Addr) := do
  let prevs ← s.findUpperPrevs key
  if prevs 0 = some headAddr then some (s, none)
  else do
    let start ← s.next headAddr 0
    let s ← detachAll prevs s s.maxLevel
    some (s, start)

/-- The loop of `pop_less_eq` over the detached nodes. -/
def drain : ℕ → Skiplist κ ν → Option Addr → List ν → Option (Skiplist κ ν × List ν)
  | _, s, none, res => some (s, res)
  | 0, _, some _, _ => none
  | fuel + 1, s, some cur, res => do
      let nx ← s.next cur 0
      let nd ← s.mem cur
      let s ← s.deallocate cur
      drain fuel s nx (res ++ [nd.val])

/-- The end of a sweep: the level bound and the counter are brought up to date. -/
def finishSweep (s : Skiplist κ ν) (cnt : ℕ) : Skiplist κ ν :=
  let s := s.lowerMaxLevel
  { s with length := s.length - cnt }

def popLessEq (s : Skiplist κ ν) (key : κ) : Option (Skiplist κ ν × List ν) := do
  match ← s.detachLessEq key with
  | (s, none) => some (s, [])
  | (s, some start) => do
      let (s, res) ← drain s.fuel s (some start) []
      some (s.finishSweep res.length, res)

/-- An insertion made by a callback: key, value and the level drawn for the node. -/
abbrev Insertion (κ ν : Type) := κ × ν × Level

/-- The insertions of one invocation of a callback, in order. -/
def emplaceAll (s : Skiplist κ ν) : List (Insertion κ ν) → Option (Skiplist κ ν)
  | [] => some s
  | (key, val, level) :: rest => do
      let (s, _) ← s.emplace key val level
      emplaceAll s rest

/-- The loop of `do_less_eq_then_pop`.  `f n v` are the insertions the callback makes when it
is invoked for the `n`-th time, on the value `v`; the values it was invoked on are
collected. -/
def sweep (f : ℕ → ν → List (Insertion κ ν)) :
    ℕ → Skiplist κ ν → Option Addr → List ν → Option (Skiplist κ ν × List ν)
  | _, s, none, visited => some (s, visited)
  | 0, _, some _, _ => none
  | fuel + 1, s, some cur, visited => do
      let nx ← s.next cur 0
      let nd ← s.mem cur
      let s ← s.emplaceAll (f visited.length nd.val)
      let s ← s.deallocate cur
      sweep f fuel s nx (visited ++ [nd.val])

/-- `do_less_eq_then_pop`, with the values its callback was invoked on. -/
def doLessEqThenPop (s : Skiplist κ ν) (key : κ) (f : ℕ → ν → List (Insertion κ ν)) :
    Option (Skiplist κ ν × List ν) := do
  match ← s.detachLessEq key with
  | (s, none) => some (s, [])
  | (s, some start) => do
      let (s, visited) ← sweep f s.fuel s (some start) []
      some (s.finishSweep visited.length, visited)

end Skiplist

end Coring
