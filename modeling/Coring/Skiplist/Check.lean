import Coring.Skiplist.Invariant
import Mathlib.Algebra.Group.Nat.Defs

/-!
# The self-check

`check_correctness` of `include/coring/detail/skiplist_map.hpp` counts the nodes of the lowest level
and then compares the keys of neighbours, level by level.  It sets its cursor to the head once, in
front of the loop over the levels, so a level is entered where the level below it ended; on a list
as the constructor makes it that is the tail, where all levels end.

`checkCorrectness_eq_true_iff` is what it looks at and `correct_iff` what it would have to look at
as well: the node at which the lowest level ends, and every other level from the head on.  The lists
that the operations make are correct, and pass the check up to its limit (`run_checkCorrectness`).
-/

namespace Coring.Skiplist

variable {κ ν : Type} [LinearOrder κ] (s : Skiplist κ ν)

/-! ## The check -/

/-- The number of nodes at which it gives up. -/
def countLimit : ℕ := 100000

/-- The first loop.  `none` where a field that does not exist is read, `some none` where the
function returns `false`. -/
def countNodes : ℕ → Option Addr → ℕ → Option (Option ℕ)
  | _, none, count => some (some count)
  | 0, some _, _ => none
  | fuel + 1, some cur, count => do
      let nx ← s.next cur 0
      if count + 1 ≥ countLimit then some none else countNodes fuel nx (count + 1)

/-- The inner loop of the second one on level `i`, with the cursor and the counter. -/
def checkLevel (i : ℕ) : ℕ → Addr → ℕ → Option (Option (Addr × ℕ))
  | 0, _, _ => none
  | fuel + 1, cur, count => do
      match ← s.next cur i with
      | none => some (some (cur, count))
      | some q =>
          let nd ← s.mem cur
          let nd' ← s.mem q
          if nd.key > nd'.key then some none
          else if count + 1 ≥ countLimit then some none
          else checkLevel i fuel q (count + 1)

/-- The second loop, with `n` levels from level `i` on still to come. -/
def checkLevels : ℕ → ℕ → Addr → ℕ → Option Bool
  | 0, _, _, _ => some true
  | n + 1, i, cur, count => do
      match ← s.checkLevel i countLimit cur count with
      | none => some false
      | some (cur, count) => checkLevels n (i + 1) cur count

/-- `count - 2` as a `size_t`. -/
def minusTwo (count : ℕ) : ℕ := (count + (2 ^ 64 - 2)) % 2 ^ 64

/-- `check_correctness`. -/
def checkCorrectness : Option Bool := do
  match ← s.countNodes countLimit (some headAddr) 0 with
  | none => some false
  | some count =>
      if minusTwo count ≠ s.size then some false
      else s.checkLevels maxLevelBound 0 headAddr 0

/-! ## Chains -/

/-- `p->level_next_[i]` for a fixed level. -/
def nextOn (i : ℕ) (p : Addr) : Option (Option Addr) := s.next p i

/-- The keys of two nodes are in order. -/
def KeyLe (p q : Addr) : Prop := ∃ a b, s.mem p = some a ∧ s.mem q = some b ∧ a.key ≤ b.key

/-- Following level `i` from `p` visits the nodes `l`, in order, and then finds null. -/
structure OrderedTrail (i : ℕ) (p : Addr) (l : List Addr) : Prop where
  trail : Trail (s.nextOn i) p l
  ordered : (p :: l).IsChain s.KeyLe

/-- Each level's chain from the head ends in null. -/
def Terminates : Prop := ∀ i < maxLevelBound, ∃ l, Trail (s.nextOn i) headAddr l

/-- The entries of the list lie between its sentinels, and every level is in order. -/
structure Correct : Prop where
  entries : ∃ l, Trail (s.nextOn 0) headAddr (l ++ [tailAddr]) ∧ l.length = s.size
  ordered : ∀ i < maxLevelBound, ∃ l, s.OrderedTrail i headAddr l

/-- Level `i` and the `n - 1` levels above it are in order, each from the node on at which the
one below ended, and the limit is not met. -/
def Threaded : ℕ → ℕ → Addr → ℕ → Prop
  | 0, _, _, _ => True
  | n + 1, i, cur, count => ∃ l, s.OrderedTrail i cur l ∧ count + l.length < countLimit ∧
      Threaded n (i + 1) (l.getLastD cur) (count + l.length)

/-- What the check looks at is right. -/
structure Passes : Prop where
  counted : ∃ l, Trail (s.nextOn 0) headAddr l ∧ l.length + 1 < countLimit ∧
    minusTwo (l.length + 1) = s.size
  threaded : s.Threaded maxLevelBound 0 headAddr 0

/-! ## What the check looks at -/

variable {s}

omit [LinearOrder κ] in
/-- A field is read from a node. -/
lemma mem_of_nextOn {i : ℕ} {p : Addr} {o : Option Addr} (h : s.nextOn i p = some o) :
    ∃ nd, s.mem p = some nd := by
  obtain ⟨nd, hnd, -⟩ := Option.bind_eq_some_iff.mp h
  exact ⟨nd, hnd⟩

omit [LinearOrder κ] in
/-- The first loop counts the nodes of the lowest level, if there are fewer than the limit. -/
lemma countNodes_eq_some_iff {fuel count n : ℕ} {cur : Addr} (hfuel : countLimit ≤ fuel + count) :
    s.countNodes fuel (some cur) count = some (some n) ↔
      ∃ l, Trail (s.nextOn 0) cur l ∧ n = count + l.length + 1 ∧ n < countLimit := by
  induction fuel generalizing cur count with
  | zero =>
    refine iff_of_false nofun ?_
    rintro ⟨l, -, rfl, hlt⟩
    omega
  | succ fuel ih =>
    rw [countNodes]
    cases hnext : s.nextOn 0 cur with
    | none =>
      rw [show s.next cur 0 = none from hnext]
      refine iff_of_false nofun ?_
      rintro ⟨l, htrail, -⟩
      exact not_trail hnext l htrail
    | some o =>
      rw [show s.next cur 0 = some o from hnext, Option.bind_eq_bind, Option.bind_some]
      by_cases hlimit : count + 1 ≥ countLimit
      · rw [if_pos hlimit]
        refine iff_of_false nofun ?_
        rintro ⟨l, -, rfl, hlt⟩
        omega
      · rw [if_neg hlimit]
        cases o with
        | none =>
          have hend : s.countNodes fuel none (count + 1) = some (some (count + 1)) := by
            cases fuel <;> rfl
          simp only [hend, trail_iff_nil hnext, Option.some_inj, exists_eq_left, List.length_nil]
          omega
        | some q =>
          rw [ih (by omega)]
          simp only [trail_iff_cons hnext]
          constructor
          · rintro ⟨l, htrail, rfl, hlt⟩
            exact ⟨q :: l, ⟨l, rfl, htrail⟩, by rw [List.length_cons]; omega, hlt⟩
          · rintro ⟨_, ⟨l, rfl, htrail⟩, rfl, hlt⟩
            exact ⟨l, htrail, by rw [List.length_cons]; omega, hlt⟩

lemma orderedTrail_iff_cons {i : ℕ} {p q : Addr} {l : List Addr}
    (h : s.nextOn i p = some (some q)) :
    s.OrderedTrail i p l ↔ ∃ r, l = q :: r ∧ s.KeyLe p q ∧ s.OrderedTrail i q r := by
  constructor
  · rintro ⟨htrail, hordered⟩
    obtain ⟨r, rfl, hrest⟩ := (trail_iff_cons h).mp htrail
    obtain ⟨hle, hordered⟩ := List.isChain_cons_cons.mp hordered
    exact ⟨r, rfl, hle, hrest, hordered⟩
  · rintro ⟨r, rfl, hle, hrest, hordered⟩
    exact ⟨⟨h, hrest⟩, List.isChain_cons_cons.mpr ⟨hle, hordered⟩⟩

/-- A null field ends a level. -/
lemma checkLevel_of_null {i fuel count : ℕ} {cur : Addr} (h : s.nextOn i cur = some none) :
    s.checkLevel i (fuel + 1) cur count = some (some (cur, count)) := by
  rw [checkLevel, show s.next cur i = some none from h]
  rfl

/-- One step along a level. -/
lemma checkLevel_of_next {i fuel count : ℕ} {cur q : Addr} {r : Addr × ℕ}
    (h : s.nextOn i cur = some (some q)) :
    s.checkLevel i (fuel + 1) cur count = some (some r) ↔
      s.KeyLe cur q ∧ count + 1 < countLimit ∧
        s.checkLevel i fuel q (count + 1) = some (some r) := by
  obtain ⟨nd, hnd⟩ := mem_of_nextOn h
  rw [checkLevel, show s.next cur i = some (some q) from h]
  simp only [Option.bind_eq_bind, Option.bind_some, hnd]
  cases hnd' : s.mem q with
  | none =>
    refine iff_of_false nofun ?_
    rintro ⟨⟨_, b, -, hb, -⟩, -⟩
    cases hb.symm.trans hnd'
  | some nd' =>
    have hle : s.KeyLe cur q ↔ nd.key ≤ nd'.key := by
      simp only [KeyLe, hnd, hnd', Option.some_inj, exists_eq_left', exists_and_left]
    rw [Option.bind_some, hle]
    by_cases hout : nd.key > nd'.key
    · rw [if_pos hout]
      exact iff_of_false nofun fun hin => absurd hout (not_lt.mpr hin.1)
    · rw [if_neg hout]
      by_cases hlimit : count + 1 ≥ countLimit
      · rw [if_pos hlimit]
        exact iff_of_false nofun fun hin => absurd hlimit (not_le.mpr hin.2.1)
      · rw [if_neg hlimit]
        exact ⟨fun hrest => ⟨not_lt.mp hout, not_le.mp hlimit, hrest⟩, fun hin => hin.2.2⟩

/-- The inner loop follows a level in order up to its end, if it stays below the limit. -/
lemma checkLevel_eq_some_iff {i fuel count : ℕ} {cur : Addr} {r : Addr × ℕ}
    (hfuel : countLimit ≤ fuel + count) (hcount : count < countLimit) :
    s.checkLevel i fuel cur count = some (some r) ↔
      ∃ l, s.OrderedTrail i cur l ∧ count + l.length < countLimit ∧
        r = (l.getLastD cur, count + l.length) := by
  induction fuel generalizing cur count with
  | zero => omega
  | succ fuel ih =>
    obtain hnext | hnext | ⟨q, hnext⟩ : s.nextOn i cur = none ∨ s.nextOn i cur = some none ∨
        ∃ q, s.nextOn i cur = some (some q) := by
      rcases s.nextOn i cur with _ | _ | q
      · exact .inl rfl
      · exact .inr (.inl rfl)
      · exact .inr (.inr ⟨q, rfl⟩)
    · rw [checkLevel, show s.next cur i = none from hnext]
      refine iff_of_false nofun ?_
      rintro ⟨l, horder, -⟩
      exact not_trail hnext l horder.trail
    · rw [checkLevel_of_null hnext, Option.some_inj, Option.some_inj]
      constructor
      · rintro rfl
        exact ⟨[], ⟨hnext, .singleton _⟩, hcount, rfl⟩
      · rintro ⟨l, horder, -, rfl⟩
        rw [(trail_iff_nil hnext).mp horder.trail]
        rfl
    · have hlen : ∀ l : List Addr, count + (q :: l).length = count + 1 + l.length :=
        fun l => by rw [List.length_cons]; omega
      rw [checkLevel_of_next hnext]
      constructor
      · rintro ⟨hle, hlimit, hrest⟩
        obtain ⟨l, horder, hlt, rfl⟩ := (ih (by omega) hlimit).mp hrest
        refine ⟨q :: l, (orderedTrail_iff_cons hnext).mpr ⟨l, rfl, hle, horder⟩, ?_, ?_⟩
        · rwa [hlen]
        · rw [hlen, List.getLastD_cons]
      · rintro ⟨l, horder, hlt, rfl⟩
        obtain ⟨l, rfl, hle, horder⟩ := (orderedTrail_iff_cons hnext).mp horder
        rw [hlen] at hlt
        have hlimit : count + 1 < countLimit := by omega
        refine ⟨hle, hlimit, (ih (by omega) hlimit).mpr ⟨l, horder, hlt, ?_⟩⟩
        rw [hlen, List.getLastD_cons]

lemma checkLevels_eq_true_iff {n i cur count : ℕ} (hcount : count < countLimit) :
    s.checkLevels n i cur count = some true ↔ s.Threaded n i cur count := by
  induction n generalizing i cur count with
  | zero => exact iff_of_true rfl trivial
  | succ n ih =>
    have hlevel : ∀ r, s.checkLevel i countLimit cur count = some (some r) ↔ _ := fun r =>
      checkLevel_eq_some_iff (by omega) hcount
    rw [checkLevels, Threaded]
    constructor
    · intro h
      obtain ⟨o, ho, h⟩ := Option.bind_eq_some_iff.mp h
      cases o with
      | none => cases h
      | some r =>
        obtain ⟨l, horder, hlt, rfl⟩ := (hlevel r).mp ho
        exact ⟨l, horder, hlt, (ih hlt).mp h⟩
    · rintro ⟨l, horder, hlt, hrest⟩
      rw [(hlevel _).mpr ⟨l, horder, hlt, rfl⟩]
      exact (ih hlt).mpr hrest

theorem checkCorrectness_eq_true_iff : s.checkCorrectness = some true ↔ s.Passes := by
  have hcounted : ∀ n, s.countNodes countLimit (some headAddr) 0 = some (some n) ↔ _ := fun n =>
    countNodes_eq_some_iff (Nat.le_refl _)
  have hthreaded : s.checkLevels maxLevelBound 0 headAddr 0 = some true ↔ _ :=
    checkLevels_eq_true_iff (by decide)
  rw [checkCorrectness]
  constructor
  · intro h
    obtain ⟨o, ho, h⟩ := Option.bind_eq_some_iff.mp h
    cases o with
    | none => cases h
    | some n =>
      obtain ⟨l, htrail, rfl, hlt⟩ := (hcounted n).mp ho
      rw [Nat.zero_add] at hlt h
      by_cases hsize : minusTwo (l.length + 1) = s.size
      · exact ⟨⟨l, htrail, hlt, hsize⟩, hthreaded.mp (by simpa only [hsize, ne_eq,
          not_true_eq_false, if_false] using h)⟩
      · simp only [ne_eq, hsize, not_false_eq_true, if_true] at h
        cases h
  · rintro ⟨⟨l, htrail, hlt, hsize⟩, hlevels⟩
    rw [(hcounted _).mpr ⟨l, htrail, rfl, by rwa [Nat.zero_add]⟩, Option.bind_eq_bind,
      Option.bind_some, Nat.zero_add]
    simp only [hsize, ne_eq, not_true_eq_false, if_false]
    exact hthreaded.mpr hlevels

/-- The lowest level is followed from the head on. -/
lemma threaded_head_iff : s.Threaded maxLevelBound 0 headAddr 0 ↔
    ∃ l, s.OrderedTrail 0 headAddr l ∧ l.length < countLimit ∧
      s.Threaded 31 1 (l.getLastD headAddr) l.length := by
  change s.Threaded (31 + 1) 0 headAddr 0 ↔ _
  rw [Threaded]
  simp only [Nat.zero_add]

/-! ## What it does not look at -/

/-- The node at which the lowest level ends, and every other level from the head on. -/
structure BeyondCheck (s : Skiplist κ ν) : Prop where
  endsInTail : ∃ l, Trail (s.nextOn 0) headAddr (l ++ [tailAddr])
  ordered : ∀ i, 0 < i → i < maxLevelBound → ∃ l, s.OrderedTrail i headAddr l

lemma Passes.correct (h : s.Passes) (hbeyond : s.BeyondCheck) : s.Correct where
  entries := by
    obtain ⟨l, hl⟩ := hbeyond.endsInTail
    obtain ⟨l', hl', hlt, hsize⟩ := h.counted
    rw [hl'.unique hl, List.length_append, List.length_singleton] at hlt hsize
    refine ⟨l, hl, hsize ▸ ?_⟩
    simp only [countLimit, minusTwo] at hlt ⊢
    omega
  ordered i hi := by
    obtain rfl | hpos := Nat.eq_zero_or_pos i
    · obtain ⟨l, horder, -⟩ := threaded_head_iff.mp h.threaded
      exact ⟨l, horder⟩
    · exact hbeyond.ordered i hpos hi

/-- **The verdict of the check holds** exactly when what it does not look at is right on every list
on which the rest is: in each state, whether or not its chains end. -/
theorem correct_iff (s : Skiplist κ ν) :
    (s.checkCorrectness = some true → s.Correct) ↔ (s.Passes → s.BeyondCheck) := by
  rw [checkCorrectness_eq_true_iff]
  refine imp_congr_right fun hpasses => ⟨fun hcorrect => ?_, hpasses.correct⟩
  obtain ⟨l, hl, -⟩ := hcorrect.entries
  exact ⟨⟨l, hl⟩, fun i _ hi => hcorrect.ordered i hi⟩

/-! ## Lists that end in the tail -/

/-- From a node on at which every level ends there is nothing to see. -/
lemma threaded_of_null {n i count : ℕ} {cur : Addr} (hcount : count < countLimit)
    (h : ∀ j, i ≤ j → j < i + n → s.nextOn j cur = some none) : s.Threaded n i cur count := by
  induction n generalizing i with
  | zero => trivial
  | succ n ih =>
    exact ⟨[], ⟨h i (Nat.le_refl _) (by omega), .singleton _⟩, hcount,
      ih fun j hij hj => h j (by omega) (by omega)⟩

/-- **No level but the lowest is looked at** on a list that ends in the tail. -/
theorem passes_iff_of_tail {l : List Addr} (hl : Trail (s.nextOn 0) headAddr (l ++ [tailAddr]))
    (htail : ∀ i < maxLevelBound, s.nextOn i tailAddr = some none) :
    s.Passes ↔ l.length + 2 < countLimit ∧ l.length = s.size ∧
      (headAddr :: (l ++ [tailAddr])).IsChain s.KeyLe := by
  have hlen : (l ++ [tailAddr]).length = l.length + 1 := by
    rw [List.length_append, List.length_singleton]
  have hcount : l.length + 2 < countLimit → minusTwo (l.length + 2) = l.length := by
    intro hlt
    simp only [countLimit, minusTwo] at hlt ⊢
    omega
  constructor
  · intro h
    obtain ⟨l', hl', hlt, hsize⟩ := h.counted
    rw [hl'.unique hl, hlen] at hlt hsize
    obtain ⟨r, horder, -⟩ := threaded_head_iff.mp h.threaded
    rw [horder.trail.unique hl] at horder
    exact ⟨hlt, (hcount hlt).symm.trans hsize, horder.ordered⟩
  · rintro ⟨hlt, hsize, hordered⟩
    refine ⟨⟨_, hl, by rwa [hlen], ?_⟩, ?_⟩
    · rw [hlen, ← hsize]
      exact hcount hlt
    · refine threaded_head_iff.mpr ⟨_, ⟨hl, hordered⟩, by rw [hlen]; omega, ?_⟩
      rw [getLastD_append, List.getLastD_cons, List.getLastD_nil]
      refine threaded_of_null (by rw [hlen]; omega) fun j _ hj => htail j ?_
      rw [maxLevelBound]
      omega

/-! ## Lists that the operations have made -/

section Made

variable [BoundedOrder κ] [Inhabited ν] {cells : List (Cell κ ν)}

omit [BoundedOrder κ] [Inhabited ν] in
lemma keyLe_of_shape {p q : Addr} {k k' : κ} {v v' : ν} {n n' : ℕ}
    (hp : s.shape p = some (k, v, n)) (hq : s.shape q = some (k', v', n')) (hle : k ≤ k') :
    s.KeyLe p q := by
  obtain ⟨a, ha, rfl, -⟩ := mem_of_shape hp
  obtain ⟨b, hb, rfl, -⟩ := mem_of_shape hq
  exact ⟨a, b, ha, hb, hle⟩

lemma Rep.nextOn_tail (h : Rep s cells [] 0) {i : ℕ} (hi : i < maxLevelBound) :
    s.nextOn i tailAddr = some none := by
  rw [nextOn, next_of_shape h.tail hi, h.tail_link]

/-- Every level is in order from the head to the tail. -/
lemma Rep.orderedTrail (h : Rep s cells [] 0) {i : ℕ} (hi : i < maxLevelBound) :
    s.OrderedTrail i headAddr (Skiplist.lane i cells ++ [tailAddr]) where
  trail := (h.lane i hi).trail (fun _ _ => next_of_link) (h.nextOn_tail hi)
  ordered := by
    have hcell : ∀ c ∈ cells, s.shape c.addr = some (c.key, c.val, c.level) := fun c hc =>
      h.cell c (List.mem_append_left _ hc)
    have hlane : (Skiplist.lane i cells).Pairwise s.KeyLe := by
      rw [Skiplist.lane, List.pairwise_map]
      refine (h.sorted.sublist List.filter_sublist).imp_of_mem fun hc hd hle => ?_
      exact keyLe_of_shape (hcell _ (List.mem_of_mem_filter hc))
        (hcell _ (List.mem_of_mem_filter hd)) hle
    refine List.Pairwise.isChain (List.pairwise_cons.mpr ⟨fun a ha => ?_, ?_⟩)
    · obtain ha | ha := List.mem_append.mp ha
      · obtain ⟨c, hc, -, rfl⟩ := mem_lane.mp ha
        exact keyLe_of_shape h.head (hcell c hc) bot_le
      · rw [List.mem_singleton.mp ha]
        exact keyLe_of_shape h.head h.tail bot_le
    · refine List.pairwise_append.mpr ⟨hlane, List.pairwise_singleton _ _, fun a ha b hb => ?_⟩
      obtain ⟨c, hc, -, rfl⟩ := mem_lane.mp ha
      rw [List.mem_singleton.mp hb]
      exact keyLe_of_shape (hcell c hc) h.tail le_top

lemma Rep.passes_iff (h : Rep s cells [] 0) : s.Passes ↔ cells.length + 2 < countLimit := by
  have hzero := h.orderedTrail (i := 0) (by decide)
  have hlen : (Skiplist.lane 0 cells).length = cells.length := by
    rw [h.lane_zero, List.length_map]
  have hsize : cells.length = s.size := h.length.symm
  rw [passes_iff_of_tail hzero.trail fun i hi => h.nextOn_tail hi, hlen]
  exact ⟨fun hpasses => hpasses.1, fun hlt => ⟨hlt, hsize, hzero.ordered⟩⟩

/-- The lists that a run leaves are correct, and the check says so up to its limit. -/
theorem run_checkCorrectness (ms : List (Mutation κ ν)) (h : ∀ m ∈ ms, m.Permitted) :
    ∃ s, machine.run (empty : Skiplist κ ν) ms = some s ∧ s.Correct ∧
      (s.checkCorrectness = some true ↔ s.size + 2 < countLimit) := by
  obtain ⟨s, hs, cells, hrep, -⟩ := run_settled ms h
  have hsize : s.size = cells.length := hrep.length
  refine ⟨s, hs, ⟨⟨_, (hrep.orderedTrail (by decide)).trail, ?_⟩, fun i hi =>
    ⟨_, hrep.orderedTrail hi⟩⟩, ?_⟩
  · rw [hsize, hrep.lane_zero, List.length_map]
  · rw [checkCorrectness_eq_true_iff, hrep.passes_iff, hsize]

end Made

/-! ## A level the check does not enter -/

/-- Two nodes of two levels with the keys 1 and 2; on level 1 the second comes first. -/
def crossed : Skiplist ℤ Unit where
  mem a := [⟨-2147483648, (), some 2 :: some 3 :: List.replicate 30 (some tailAddr)⟩,
    ⟨2147483647, (), List.replicate maxLevelBound none⟩,
    ⟨1, (), [some 3, some tailAddr]⟩, ⟨2, (), [some tailAddr, some 2]⟩][a]?
  maxLevel := 2
  length := 2
  unused := 4
  freed := []

theorem checkCorrectness_crossed :
    crossed.Terminates ∧ crossed.checkCorrectness = some true ∧ ¬ crossed.Correct := by
  refine ⟨?_, ?_, ?_⟩
  · have htrails : ∀ i < maxLevelBound, Trail (crossed.nextOn i) headAddr
        (if i = 0 then [2, 3, 1] else if i = 1 then [3, 2, 1] else [1]) := by decide
    exact fun i hi => ⟨_, htrails i hi⟩
  · decide
  · intro hcorrect
    obtain ⟨l, htrail, hordered⟩ := hcorrect.ordered 1 (by decide)
    have hl : l = [3, 2, 1] := htrail.unique (by decide)
    subst hl
    obtain ⟨a, b, ha, hb, hle⟩ := (List.isChain_cons_cons.mp
      (List.isChain_cons_cons.mp hordered).2).1
    cases ha
    cases hb
    exact absurd hle (by decide)

end Coring.Skiplist
