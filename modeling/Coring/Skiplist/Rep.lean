import Coring.Framework.Ordered
import Coring.Framework.Segment
import Coring.Skiplist.Memory
import Mathlib.Data.List.Perm.Basic
import Mathlib.Data.List.Range

/-!
# The representation of a sorted list by a skip list

`Rep s cells loose extra` relates a skip list's memory to the list of cells it represents.
The nodes reachable from the head are `cells`, in order; on level `i` the links visit exactly
those of them that have more than `i` levels (`lane i cells`).  While a sweep is in progress
the nodes it has detached and not yet freed are `loose`, a chain of its own that ends in a
null link, and `length_` still counts the `extra` nodes the sweep will subtract at its end;
between operations there are none.  Every address ever handed out is that of a sentinel, of a
node in one of the two lists, or has been given back exactly once (`account`).

The file then determines what a search finds.  For a key test that holds on a front part of
the cells and fails on the rest, the descent leaves level `j` at the last cell of the front
part that takes part in that level, or at the head if there is none (`pred`), whatever the
levels are; the bound on the number of steps is never reached.
-/

namespace Coring.Skiplist

/-- A node in the list, with its address. -/
structure Cell (κ ν : Type) where
  addr : Addr
  key : κ
  val : ν
  level : ℕ

variable {κ ν : Type}

/-- The entries of a list of cells. -/
def contents (cells : List (Cell κ ν)) : List (κ × ν) := cells.map fun c => (c.key, c.val)

lemma length_contents (cells : List (Cell κ ν)) : (contents cells).length = cells.length :=
  List.length_map ..

lemma exists_key_contents {cells : List (Cell κ ν)} (key : κ) :
    (∃ x ∈ contents cells, x.1 = key) ↔ ∃ c ∈ cells, c.key = key := by
  simp only [contents, List.mem_map]
  constructor
  · rintro ⟨x, ⟨c, hc, rfl⟩, hx⟩
    exact ⟨c, hc, hx⟩
  · rintro ⟨c, hc, hk⟩
    exact ⟨_, ⟨c, hc, rfl⟩, hk⟩

/-- A cell among others. -/
lemma perm_middle (front rest : List (Cell κ ν)) (d : Cell κ ν) :
    ((front ++ d :: rest).map Cell.addr).Perm (d.addr :: (front ++ rest).map Cell.addr) := by
  rw [List.map_append, List.map_append, List.map_cons]
  exact List.perm_middle

/-- Its address is its own. -/
lemma addr_ne_of_middle {front rest : List (Cell κ ν)} {d : Cell κ ν}
    (hnd : ((front ++ d :: rest).map Cell.addr).Nodup) : ∀ c ∈ front ++ rest, c.addr ≠ d.addr := by
  intro c hc heq
  have hnot := (List.nodup_cons.mp ((perm_middle front rest d).nodup_iff.mp hnd)).1
  exact hnot (heq ▸ List.mem_map_of_mem hc)

/-- Whether it is live or freed, it is accounted for. -/
lemma perm_freed (front rest : List (Cell κ ν)) (d : Cell κ ν) (freed : List Addr) :
    ((front ++ rest).map Cell.addr ++ (freed ++ [d.addr])).Perm
      ((front ++ d :: rest).map Cell.addr ++ freed) := by
  rw [← List.append_assoc]
  exact (List.perm_append_singleton d.addr _).trans
    ((perm_middle front rest d).append_right freed).symm

/-! ## Lanes -/

/-- The nodes on level `i`: those with more than `i` levels. -/
def lane (i : ℕ) (cells : List (Cell κ ν)) : List Addr :=
  (cells.filter fun c => i < c.level).map Cell.addr

/-- The node a level is left at: the last one of the front part on that level, or the head. -/
def pred (front : List (Cell κ ν)) (i : ℕ) : Addr := (lane i front).getLastD headAddr

variable {i j n : ℕ} {c : Cell κ ν} {cells front rest : List (Cell κ ν)}

@[simp] lemma lane_nil : lane i ([] : List (Cell κ ν)) = [] := rfl

@[simp] lemma lane_append (l r : List (Cell κ ν)) : lane i (l ++ r) = lane i l ++ lane i r := by
  simp [lane]

lemma lane_cons_of_lt (h : i < c.level) : lane i (c :: cells) = c.addr :: lane i cells := by
  simp [lane, h]

lemma lane_cons_of_le (h : c.level ≤ i) : lane i (c :: cells) = lane i cells := by
  simp [lane, h]

lemma mem_lane {a : Addr} : a ∈ lane i cells ↔ ∃ c ∈ cells, i < c.level ∧ c.addr = a := by
  simp [lane, and_assoc]

lemma lane_sublist (i : ℕ) (cells : List (Cell κ ν)) :
    (lane i cells).Sublist (cells.map Cell.addr) :=
  List.filter_sublist.map _

lemma length_lane_le (i : ℕ) (cells : List (Cell κ ν)) : (lane i cells).length ≤ cells.length := by
  simpa using (lane_sublist i cells).length_le

lemma lane_zero (h : ∀ c ∈ cells, 1 ≤ c.level) : lane 0 cells = cells.map Cell.addr := by
  rw [lane, List.filter_eq_self.mpr]
  simpa using fun c hc => Nat.lt_of_lt_of_le Nat.zero_lt_one (h c hc)

lemma lane_eq_nil (h : ∀ c ∈ cells, c.level ≤ i) : lane i cells = [] := by
  rw [lane, List.map_eq_nil_iff, List.filter_eq_nil_iff]
  intro c hc
  have := h c hc
  simp only [decide_eq_true_eq]
  omega

/-- The lane above, as a way to start in the middle of a lane: some front part of level `i`
ends where the whole of level `i + 1` does. -/
lemma lane_split (i : ℕ) : ∀ front : List (Cell κ ν), ∃ U V, lane i front = U ++ V ∧
    ∀ p, U.getLastD p = (lane (i + 1) front).getLastD p
  | [] => ⟨[], [], rfl, fun _ => rfl⟩
  | c :: front => by
      obtain ⟨U, V, hUV, hlast⟩ := lane_split i front
      by_cases hi : c.level ≤ i
      · rw [lane_cons_of_le hi, lane_cons_of_le (Nat.le_succ_of_le hi)]
        exact ⟨U, V, hUV, hlast⟩
      · rw [lane_cons_of_lt (Nat.lt_of_not_le hi), hUV]
        by_cases hi' : c.level ≤ i + 1
        · rw [lane_cons_of_le hi']
          cases hl : lane (i + 1) front with
          | nil => exact ⟨[], c.addr :: (U ++ V), rfl, fun _ => rfl⟩
          | cons a l =>
            refine ⟨c.addr :: U, V, rfl, fun p => ?_⟩
            rw [List.getLastD_cons, hlast, hl, List.getLastD_cons, List.getLastD_cons]
        · rw [lane_cons_of_lt (Nat.lt_of_not_le hi')]
          refine ⟨c.addr :: U, V, rfl, fun p => ?_⟩
          rw [List.getLastD_cons, hlast, List.getLastD_cons]

lemma pred_eq_head_or_mem (front : List (Cell κ ν)) (i : ℕ) :
    pred front i = headAddr ∨ ∃ c ∈ front, i < c.level ∧ c.addr = pred front i := by
  have h : pred front i ∈ headAddr :: lane i front := List.getLastD_mem_cons
  rcases List.mem_cons.mp h with h | h
  · exact .inl h
  · exact .inr (mem_lane.mp h)

/-! ## One level of a search -/

/-- One level: the walk passes the nodes whose keys pass the test and stops before the first
that does not. -/
lemma walk_spec {s : Skiplist κ ν} (past : κ → Bool) {r : List Addr} {q : Addr} (i : ℕ) :
    ∀ {l : List Addr} {p : Addr} (fuel : ℕ), Seg (s.link i) p (l ++ r) q →
      (∀ a ∈ l, ∃ k v m, s.shape a = some (k, v, m) ∧ past k = true) →
      (∃ k v m, s.shape (r.headD q) = some (k, v, m) ∧ past k = false) → l.length < fuel →
      s.walk past i fuel p = some (l.getLastD p)
  | [], p, fuel + 1, hseg, _, ⟨k, v, m, hshape, hstop⟩, _ => by
      obtain ⟨nd, hnd, rfl, -, -⟩ := mem_of_shape hshape
      have hnext : s.next p i = some (some (r.headD q)) := next_of_link hseg.next
      rw [walk]
      simp only [hnext, Option.bind_eq_bind, Option.bind_some, hnd, hstop, Bool.false_eq_true,
        if_false, List.getLastD_nil]
  | a :: l, p, fuel + 1, hseg, hl, hr, hfuel => by
      obtain ⟨k, v, m, hshape, hgo⟩ := hl a (List.mem_cons_self ..)
      obtain ⟨nd, hnd, rfl, -, -⟩ := mem_of_shape hshape
      have hnext : s.next p i = some (some a) := next_of_link hseg.1
      have ih := walk_spec past i fuel hseg.2
        (fun b hb => hl b (List.mem_cons_of_mem _ hb)) hr (Nat.lt_of_succ_lt_succ hfuel)
      rw [walk, List.getLastD_cons, ← ih]
      simp only [hnext, Option.bind_eq_bind, Option.bind_some, hnd, hgo, if_true]

/-! ## Splitting at a key -/

variable [LinearOrder κ]

/-- The front part a search for `key` passes. -/
def below (key : κ) (cells : List (Cell κ ν)) : List (Cell κ ν) :=
  cells.takeWhile fun c => key > c.key

def notBelow (key : κ) (cells : List (Cell κ ν)) : List (Cell κ ν) :=
  cells.dropWhile fun c => key > c.key

/-- The front part a sweep up to `key` passes. -/
def upTo (key : κ) (cells : List (Cell κ ν)) : List (Cell κ ν) :=
  cells.takeWhile fun c => key ≥ c.key

def beyond (key : κ) (cells : List (Cell κ ν)) : List (Cell κ ν) :=
  cells.dropWhile fun c => key ≥ c.key

lemma below_append_notBelow (key : κ) (cells : List (Cell κ ν)) :
    below key cells ++ notBelow key cells = cells := List.takeWhile_append_dropWhile

lemma upTo_append_beyond (key : κ) (cells : List (Cell κ ν)) :
    upTo key cells ++ beyond key cells = cells := List.takeWhile_append_dropWhile

lemma lt_of_mem_below {key : κ} (hc : c ∈ below key cells) : c.key < key := by
  simpa using List.mem_takeWhile_imp hc

lemma le_of_mem_upTo {key : κ} (hc : c ∈ upTo key cells) : c.key ≤ key := by
  simpa using List.mem_takeWhile_imp hc

lemma le_of_mem_notBelow {key : κ} (hs : cells.Pairwise fun c d => c.key ≤ d.key)
    (hc : c ∈ notBelow key cells) : key ≤ c.key := by
  have h := dropWhile_eq_false (fun c : Cell κ ν => key > c.key)
    (fun a b hab hb => by simp only [gt_iff_lt, decide_eq_true_eq] at *; exact hab.trans_lt hb)
    hs c hc
  simpa using h

lemma eraseP_below {key : κ} {d : Cell κ ν}
    (hnb : notBelow key cells = d :: rest) (hd : d.key = key) :
    cells.eraseP (fun c => c.key = key) = below key cells ++ rest := by
  nth_rewrite 1 [← below_append_notBelow key cells]
  rw [List.eraseP_append_right, hnb, List.eraseP_cons_of_pos (by simpa using hd)]
  intro c hc
  simpa using (lt_of_mem_below hc).ne

lemma lt_of_mem_beyond {key : κ} (hs : cells.Pairwise fun c d => c.key ≤ d.key)
    (hc : c ∈ beyond key cells) : key < c.key := by
  have h := dropWhile_eq_false (fun c : Cell κ ν => key ≥ c.key)
    (fun a b hab hb => by simp only [ge_iff_le, decide_eq_true_eq] at *; exact hab.trans hb)
    hs c hc
  simpa using h

/-! ## The representation -/

variable [BoundedOrder κ] [Inhabited ν]

structure Rep (s : Skiplist κ ν) (cells loose : List (Cell κ ν)) (extra : ℕ) : Prop where
  account : (headAddr :: tailAddr :: ((cells ++ loose).map Cell.addr ++ s.freed)).Perm
    (List.range s.unused)
  head : s.shape headAddr = some (⊥, default, maxLevelBound)
  tail : s.shape tailAddr = some (⊤, default, maxLevelBound)
  tail_link : ∀ i, s.link i tailAddr = none
  cell : ∀ c ∈ cells ++ loose, s.shape c.addr = some (c.key, c.val, c.level)
  level : ∀ c ∈ cells ++ loose, 1 ≤ c.level ∧ c.level ≤ maxLevelBound
  level_le : ∀ c ∈ cells, c.level ≤ s.maxLevel
  maxLevel : 1 ≤ s.maxLevel ∧ s.maxLevel ≤ maxLevelBound
  lane : ∀ i < maxLevelBound, Seg (s.link i) headAddr (lane i cells) tailAddr
  loose : NullSeg (s.link 0) (loose.head?.map Cell.addr) (loose.map Cell.addr)
  sorted : cells.Pairwise fun c d => c.key ≤ d.key
  length : s.length = cells.length + extra

/-- `max_level_` is not larger than it has to be. -/
def Tight (s : Skiplist κ ν) (cells : List (Cell κ ν)) : Prop :=
  s.maxLevel = 1 ∨ ∃ c ∈ cells, c.level = s.maxLevel

namespace Rep

variable {s : Skiplist κ ν} {loose : List (Cell κ ν)} {extra : ℕ}

/-- The live addresses are distinct. -/
lemma nodup (h : Rep s cells loose extra) :
    (headAddr :: tailAddr :: (cells ++ loose).map Cell.addr).Nodup := by
  have hnd := (h.account.nodup_iff).mpr List.nodup_range
  refine hnd.sublist (((List.sublist_append_left _ _).cons_cons _).cons_cons _)

lemma nodup_cells (h : Rep s cells loose extra) : ((cells ++ loose).map Cell.addr).Nodup :=
  (List.nodup_cons.mp (List.nodup_cons.mp h.nodup).2).2

lemma addr_lt_unused (h : Rep s cells loose extra) (hc : c ∈ cells ++ loose) :
    c.addr < s.unused := by
  have hmem : c.addr ∈ List.range s.unused :=
    h.account.subset (List.mem_cons_of_mem _ (List.mem_cons_of_mem _
      (List.mem_append_left _ (List.mem_map_of_mem hc))))
  exact List.mem_range.mp hmem

lemma length_lt_unused (h : Rep s cells loose extra) :
    cells.length + loose.length + 2 ≤ s.unused := by
  have hlen := h.account.length_eq
  simp only [List.length_cons, List.length_append, List.length_map, List.length_range] at hlen
  omega

lemma head_lt_unused (h : Rep s cells loose extra) : headAddr < s.unused :=
  Nat.lt_of_lt_of_le (by simp [headAddr]) h.length_lt_unused

lemma tail_lt_unused (h : Rep s cells loose extra) : tailAddr < s.unused :=
  Nat.lt_of_lt_of_le (by simp [tailAddr]) h.length_lt_unused

/-- The addresses on one level are distinct, and distinct from the head. -/
lemma nodup_lane (h : Rep s cells loose extra) (i : ℕ) :
    (headAddr :: Skiplist.lane i cells).Nodup := by
  refine h.nodup.sublist (List.Sublist.cons_cons _ ?_)
  refine ((lane_sublist i cells).trans ?_).cons _
  rw [List.map_append]
  exact List.sublist_append_left _ _

lemma head_ne_cell (h : Rep s cells loose extra) (hc : c ∈ cells ++ loose) :
    c.addr ≠ headAddr := fun heq =>
  (List.nodup_cons.mp h.nodup).1
    (heq ▸ List.mem_cons_of_mem _ (List.mem_map_of_mem hc))

lemma tail_ne_cell (h : Rep s cells loose extra) (hc : c ∈ cells ++ loose) :
    c.addr ≠ tailAddr := fun heq =>
  (List.nodup_cons.mp (List.nodup_cons.mp h.nodup).2).1 (heq ▸ List.mem_map_of_mem hc)

/-- The predecessor on a level is a live node with that level. -/
lemma shape_pred (h : Rep s (front ++ rest) loose extra) (hi : i < maxLevelBound) :
    ∃ k v m, s.shape (pred front i) = some (k, v, m) ∧ i < m := by
  rcases pred_eq_head_or_mem front i with hp | ⟨c, hc, hlt, hp⟩
  · exact ⟨_, _, _, hp ▸ h.head, hi⟩
  · refine ⟨c.key, c.val, c.level, ?_, hlt⟩
    rw [← hp]
    exact h.cell c (List.mem_append_left _ (List.mem_append_left _ hc))

lemma tail_ne_pred (h : Rep s (front ++ rest) loose extra) (i : ℕ) :
    tailAddr ≠ pred front i := by
  intro heq
  rcases pred_eq_head_or_mem front i with hp | ⟨c, hc, -, hp⟩
  · exact absurd (heq.trans hp) (by decide)
  · exact h.tail_ne_cell (List.mem_append_left _ (List.mem_append_left _ hc)) (hp.trans heq.symm)

lemma pred_lt_unused (h : Rep s (front ++ rest) loose extra) (i : ℕ) :
    pred front i < s.unused := by
  rcases pred_eq_head_or_mem front i with hp | ⟨c, hc, -, hp⟩
  · exact hp ▸ h.head_lt_unused
  · exact hp ▸ h.addr_lt_unused (List.mem_append_left _ (List.mem_append_left _ hc))

/-- Above the level bound the predecessor is the head. -/
lemma pred_eq_head (h : Rep s (front ++ rest) loose extra) (hi : s.maxLevel ≤ i) :
    pred front i = headAddr := by
  rw [pred, lane_eq_nil, List.getLastD_nil]
  intro c hc
  exact Nat.le_trans (h.level_le c (List.mem_append_left _ hc)) hi

lemma lane_zero (h : Rep s cells loose extra) :
    Skiplist.lane 0 cells = cells.map Cell.addr :=
  Skiplist.lane_zero fun c hc => (h.level c (List.mem_append_left _ hc)).1

end Rep

/-! ## What a search finds -/

section Search

variable {s : Skiplist κ ν} {loose : List (Cell κ ν)} {extra : ℕ}

/-- The whole descent, from any level the search can be in. -/
lemma descend_spec (past : κ → Bool) (h : Rep s (front ++ rest) loose extra)
    (hfront : ∀ c ∈ front, past c.key = true) (hrest : ∀ c ∈ rest, past c.key = false)
    (htop : past ⊤ = false) :
    ∀ (n : ℕ) (prevs : ℕ → Option Addr), n ≤ maxLevelBound →
      s.descend past n (pred front n) prevs = some (pred front 0,
        fun j => if j < n then some (pred front j) else prevs j)
  | 0, prevs, _ => rfl
  | i + 1, prevs, hn => by
      obtain ⟨U, V, hUV, hlast⟩ := lane_split i front
      have hseg := h.lane i hn
      rw [lane_append, hUV, List.append_assoc] at hseg
      have hgo : ∀ a ∈ V, ∃ k v m, s.shape a = some (k, v, m) ∧ past k = true := by
        intro a ha
        obtain ⟨c, hc, -, rfl⟩ := mem_lane.mp (hUV ▸ List.mem_append_right U ha)
        exact ⟨_, _, _, h.cell c (List.mem_append_left _ (List.mem_append_left _ hc)),
          hfront c hc⟩
      have hstop : ∃ k v m, s.shape ((lane i rest).headD tailAddr) = some (k, v, m) ∧
          past k = false := by
        cases hr : lane i rest with
        | nil => exact ⟨_, _, _, h.tail, htop⟩
        | cons a l =>
          have ha : a ∈ lane i rest := hr ▸ List.mem_cons_self ..
          obtain ⟨c, hc, -, rfl⟩ := mem_lane.mp ha
          exact ⟨_, _, _, h.cell c (List.mem_append_left _ (List.mem_append_right _ hc)),
            hrest c hc⟩
      have hfuel : V.length < s.fuel := by
        have h₁ := length_lane_le i front
        have h₂ := h.length_lt_unused
        rw [hUV] at h₁
        rw [List.length_append] at h₁ h₂
        rw [fuel]
        omega
      have hwalk := walk_spec past (r := lane i rest) i s.fuel hseg.drop hgo hstop hfuel
      rw [← getLastD_append, ← hUV, hlast, ← pred, ← pred] at hwalk
      rw [descend]
      simp only [hwalk, Option.bind_eq_bind, Option.bind_some]
      rw [descend_spec past h hfront hrest htop i _ (Nat.le_of_succ_le hn)]
      congr 2
      funext j
      by_cases hj : j = i
      · subst hj
        simp
      · have hlt : j < i + 1 ↔ j < i := by omega
        simp [hj, hlt]

lemma descend_gt_spec (h : Rep s cells loose extra) (key : κ) :
    s.descend (fun k => key > k) s.maxLevel headAddr (fun _ => none)
      = some (pred (below key cells) 0,
          fun j => if j < s.maxLevel then some (pred (below key cells) j) else none) := by
  have h' : Rep s (below key cells ++ notBelow key cells) loose extra := by
    rwa [below_append_notBelow]
  rw [← descend_spec (fun k => key > k) h' (fun c hc => by simpa using lt_of_mem_below hc)
    (fun c hc => by simpa using le_of_mem_notBelow h.sorted hc) (by simp) s.maxLevel
    (fun _ => none) h.maxLevel.2, h'.pred_eq_head (Nat.le_refl _)]

lemma findPrevs_spec (h : Rep s cells loose extra) (key : κ) :
    s.findPrevs key = some fun j =>
      if j < s.maxLevel then some (pred (below key cells) j) else none := by
  rw [findPrevs, descend_gt_spec h key]
  rfl

lemma findUpperPrevs_spec (h : Rep s cells loose extra) {key : κ} (hkey : key < ⊤) :
    s.findUpperPrevs key = some fun j =>
      if j < s.maxLevel then some (pred (upTo key cells) j) else none := by
  have h' : Rep s (upTo key cells ++ beyond key cells) loose extra := by
    rwa [upTo_append_beyond]
  have hd := descend_spec (fun k => key ≥ k) h' (fun c hc => by simpa using le_of_mem_upTo hc)
    (fun c hc => by simpa using lt_of_mem_beyond h.sorted hc) (by simpa using hkey.ne) s.maxLevel
    (fun _ => none) h.maxLevel.2
  rw [h'.pred_eq_head (Nat.le_refl _)] at hd
  rw [findUpperPrevs, hd]
  rfl

end Search

end Coring.Skiplist
