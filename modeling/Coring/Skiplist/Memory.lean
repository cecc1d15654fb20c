import Coring.Skiplist.Basic
import Mathlib.Tactic.SplitIfs

/-!
# The skip list's memory, as shapes and links

The proofs about the skip list look at its memory through two functions.  `shape` gives the
parts of a node that never change while it lives: its key, its value and its number of levels.
`link` gives the target of a successor field, with null and inaccessible fields both `none`.
Every primitive access is determined by the two, and each of the relinking loops of the source
is described by one closed formula for the links it leaves (`spliced`, `unlinked`,
`detached`), so that the arguments about chains can be made level by level and without any
further reference to the loops.
-/

namespace Coring.Skiplist

variable {κ ν : Type}

/-- Key, value and number of levels of the node at an address. -/
def shape (s : Skiplist κ ν) (p : Addr) : Option (κ × ν × ℕ) :=
  (s.mem p).map fun nd => (nd.key, nd.val, nd.levelNext.length)

/-- Where the successor field of `p` on level `i` points to. -/
def link (s : Skiplist κ ν) (i : ℕ) (p : Addr) : Option Addr := (s.next p i).join

variable {s s' s'' : Skiplist κ ν} {p q : Addr} {i n : ℕ} {k : κ} {v : ν}

lemma mem_of_shape (h : s.shape p = some (k, v, n)) :
    ∃ nd, s.mem p = some nd ∧ nd.key = k ∧ nd.val = v ∧ nd.levelNext.length = n := by
  rw [shape, Option.map_eq_some_iff] at h
  obtain ⟨nd, hnd, heq⟩ := h
  simp only [Prod.mk.injEq] at heq
  exact ⟨nd, hnd, heq⟩

/-- A successor field below a node's number of levels can be read. -/
lemma next_of_shape (h : s.shape p = some (k, v, n)) (hi : i < n) :
    s.next p i = some (s.link i p) := by
  obtain ⟨nd, hnd, -, -, hlen⟩ := mem_of_shape h
  have hi' : i < nd.levelNext.length := hlen ▸ hi
  simp [link, next, hnd, List.getElem?_eq_getElem hi']

/-- So can one that is known to point somewhere. -/
lemma next_of_link (h : s.link i p = some q) : s.next p i = some (some q) := by
  rw [link, Option.join_eq_some_iff] at h
  exact h

/-- A successor field that points somewhere is below its node's number of levels. -/
lemma lt_of_link (h : s.shape p = some (k, v, n)) (hl : s.link i p = some q) : i < n := by
  obtain ⟨nd, hnd, -, -, hlen⟩ := mem_of_shape h
  have hnext := next_of_link hl
  simp only [next, hnd, Option.bind_eq_bind, Option.bind_some] at hnext
  exact hlen ▸ (List.getElem?_eq_some_iff.mp hnext).1

/-- `s'` is `s` with its links changed to `lk`. -/
structure Relinked (s s' : Skiplist κ ν) (lk : ℕ → Addr → Option Addr) : Prop where
  shape : s'.shape = s.shape
  link : s'.link = lk
  maxLevel : s'.maxLevel = s.maxLevel
  length : s'.length = s.length
  unused : s'.unused = s.unused
  freed : s'.freed = s.freed

lemma Relinked.refl (s : Skiplist κ ν) : Relinked s s s.link :=
  ⟨rfl, rfl, rfl, rfl, rfl, rfl⟩

lemma Relinked.trans {lk lk' : ℕ → Addr → Option Addr} (h : Relinked s s' lk)
    (h' : Relinked s' s'' lk') : Relinked s s'' lk' where
  shape := h'.shape.trans h.shape
  link := h'.link
  maxLevel := h'.maxLevel.trans h.maxLevel
  length := h'.length.trans h.length
  unused := h'.unused.trans h.unused
  freed := h'.freed.trans h.freed

/-! ## The primitives -/

/-- The links after one assignment to a successor field. -/
def setLink (lk : ℕ → Addr → Option Addr) (i : ℕ) (p : Addr) (q : Option Addr) :
    ℕ → Addr → Option Addr :=
  fun j a => if j = i ∧ a = p then q else lk j a

lemma setNext_spec (h : s.shape p = some (k, v, n)) (hi : i < n) (q : Option Addr) :
    ∃ s', s.setNext p i q = some s' ∧ Relinked s s' (setLink s.link i p q) := by
  obtain ⟨nd, hnd, -, -, hlen⟩ := mem_of_shape h
  have hi' : i < nd.levelNext.length := hlen ▸ hi
  have hset : s.setNext p i q = some { s with
      mem := Function.update s.mem p (some { nd with levelNext := nd.levelNext.set i q }) } := by
    simp only [setNext, hnd, Option.bind_eq_bind, Option.bind_some, if_pos hi']
  refine ⟨_, hset, ?_, ?_, rfl, rfl, rfl, rfl⟩
  · funext a
    by_cases ha : a = p
    · subst ha
      simp [shape, hnd]
    · simp [shape, ha]
  · funext j a
    by_cases ha : a = p
    · subst ha
      by_cases hj : j = i
      · subst hj
        simp [link, next, setLink, hi']
      · simp [link, next, setLink, hj, hnd, List.getElem?_set_ne (Ne.symm hj)]
    · simp [link, next, setLink, ha]

lemma allocate_shape (s : Skiplist κ ν) (key : κ) (val : ν) (size : ℕ) :
    (s.allocate key val size).1.shape
      = Function.update s.shape s.unused (some (key, val, size)) := by
  funext a
  by_cases ha : a = s.unused
  · subst ha
    simp [shape, allocate]
  · simp [shape, allocate, ha]

lemma allocate_link (s : Skiplist κ ν) (key : κ) (val : ν) (size j : ℕ) (a : Addr) :
    (s.allocate key val size).1.link j a
      = if a = s.unused then none else s.link j a := by
  by_cases ha : a = s.unused
  · subst ha
    by_cases hj : j < size
    · simp [link, next, allocate, hj]
    · simp [link, next, allocate, hj]
  · simp [link, next, allocate, ha]

lemma deallocate_spec (h : s.shape p = some (k, v, n)) :
    ∃ s', s.deallocate p = some s' ∧ s'.shape = Function.update s.shape p none ∧
      (∀ j a, a ≠ p → s'.link j a = s.link j a) ∧
      s'.maxLevel = s.maxLevel ∧ s'.length = s.length ∧ s'.unused = s.unused ∧
      s'.freed = s.freed ++ [p] := by
  obtain ⟨nd, hnd, -⟩ := mem_of_shape h
  have hde : s.deallocate p = some { s with
      mem := Function.update s.mem p none, freed := s.freed ++ [p] } := by
    simp only [deallocate, hnd, Option.bind_eq_bind, Option.bind_some]
  refine ⟨_, hde, ?_, ?_, rfl, rfl, rfl, rfl⟩
  · funext a
    by_cases ha : a = p
    · subst ha
      simp [shape]
    · simp [shape, ha]
  · intro j a ha
    simp [link, next, ha]

/-! ## The relinking loops -/

section Loops

variable {prevs : ℕ → Option Addr} {pr : ℕ → Addr} {cur del : Addr}

/-- The links after the loop of `emplace`: on each level below `n` the new node stands behind
its predecessor. -/
def spliced (lk : ℕ → Addr → Option Addr) (pr : ℕ → Addr) (cur : Addr) (n : ℕ) :
    ℕ → Addr → Option Addr :=
  fun j a =>
    if j < n then
      if a = pr j then some cur else if a = cur then lk j (pr j) else lk j a
    else lk j a

lemma linkAt_spec (hprev : prevs i = some (pr i))
    (hpr : ∃ k v m, s.shape (pr i) = some (k, v, m) ∧ i < m)
    (hcur : ∃ k v m, s.shape cur = some (k, v, m) ∧ i < m) :
    ∃ s', s.linkAt prevs cur i = some s' ∧
      Relinked s s' (setLink (setLink s.link i cur (s.link i (pr i))) i (pr i) (some cur)) := by
  obtain ⟨k₁, v₁, m₁, hs₁, hi₁⟩ := hpr
  obtain ⟨k₂, v₂, m₂, hs₂, hi₂⟩ := hcur
  obtain ⟨t, ht, hrt⟩ := setNext_spec hs₂ hi₂ (s.link i (pr i))
  obtain ⟨u, hu, hru⟩ := setNext_spec (s := t) (hrt.shape ▸ hs₁) hi₁ (some cur)
  refine ⟨u, ?_, hrt.trans (by rw [hrt.link] at hru; exact hru)⟩
  simp only [linkAt, hprev, Option.bind_eq_bind, Option.bind_some, next_of_shape hs₁ hi₁, ht, hu]

lemma linkAll_spec (prevs : ℕ → Option Addr) (pr : ℕ → Addr) (cur : Addr)
    (hprev : ∀ i < n, prevs i = some (pr i))
    (hpr : ∀ i < n, ∃ k v m, s.shape (pr i) = some (k, v, m) ∧ i < m)
    (hcur : ∃ k v m, s.shape cur = some (k, v, m) ∧ n ≤ m) :
    ∃ s', linkAll prevs cur n s = some s' ∧ Relinked s s' (spliced s.link pr cur n) := by
  induction n generalizing s with
  | zero =>
    refine ⟨s, rfl, ?_⟩
    have hlk : spliced s.link pr cur 0 = s.link := by
      funext j a
      simp [spliced]
    rw [hlk]
    exact Relinked.refl s
  | succ n ih =>
    obtain ⟨kc, vc, mc, hsc, hmc⟩ := hcur
    obtain ⟨t, ht, hrt⟩ := linkAt_spec (hprev n (Nat.lt_succ_self n))
      (hpr n (Nat.lt_succ_self n)) ⟨kc, vc, mc, hsc, hmc⟩
    obtain ⟨u, hu, hru⟩ := ih (s := t) (fun i hi => hprev i (by omega))
      (fun i hi => by rw [hrt.shape]; exact hpr i (by omega))
      ⟨kc, vc, mc, by rw [hrt.shape, hsc], by omega⟩
    refine ⟨u, by simp only [linkAll, ht, Option.bind_eq_bind, Option.bind_some, hu], ?_⟩
    have hlk : spliced t.link pr cur n = spliced s.link pr cur (n + 1) := by
      funext j a
      rw [hrt.link]
      simp only [spliced, setLink]
      by_cases hj : j = n
      · subst hj
        simp
      · have hlt : j < n + 1 ↔ j < n := by omega
        simp [hj, hlt]
    rw [← hlk]
    exact hrt.trans hru

/-- The links after the loop of `erase_one`: on each level below `n` the predecessor takes
over the successor of the removed node. -/
def unlinked (lk : ℕ → Addr → Option Addr) (pr : ℕ → Addr) (del : Addr) (n : ℕ) :
    ℕ → Addr → Option Addr :=
  fun j a => if j < n ∧ a = pr j then lk j del else lk j a

lemma unlinkAll_spec (prevs : ℕ → Option Addr) (pr : ℕ → Addr) (del : Addr)
    (hprev : ∀ i < n, prevs i = some (pr i))
    (hpr : ∀ i < n, ∃ k v m, s.shape (pr i) = some (k, v, m) ∧ i < m)
    (hdel : ∃ k v m, s.shape del = some (k, v, m) ∧ n ≤ m) :
    ∃ s', unlinkAll prevs del s n = some s' ∧ Relinked s s' (unlinked s.link pr del n) := by
  induction n with
  | zero =>
    refine ⟨s, rfl, ?_⟩
    have hlk : unlinked s.link pr del 0 = s.link := by
      funext j a
      simp [unlinked]
    rw [hlk]
    exact Relinked.refl s
  | succ n ih =>
    obtain ⟨kd, vd, md, hsd, hmd⟩ := hdel
    obtain ⟨kp, vp, mp, hsp, hmp⟩ := hpr n (Nat.lt_succ_self n)
    obtain ⟨t, ht, hrt⟩ := ih (fun i hi => hprev i (by omega)) (fun i hi => hpr i (by omega))
      ⟨kd, vd, md, hsd, by omega⟩
    obtain ⟨u, hu, hru⟩ := setNext_spec (s := t) (hrt.shape ▸ hsp) hmp (t.link n del)
    have hnext : t.next del n = some (t.link n del) :=
      next_of_shape (s := t) (hrt.shape ▸ hsd) (by omega)
    refine ⟨u, by
      simp only [unlinkAll, ht, Option.bind_eq_bind, Option.bind_some,
        hprev n (Nat.lt_succ_self n), hnext, hu], ?_⟩
    have hlk : setLink t.link n (pr n) (t.link n del) = unlinked s.link pr del (n + 1) := by
      funext j a
      rw [hrt.link]
      simp only [setLink, unlinked]
      by_cases hj : j = n
      · subst hj
        simp
      · have hlt : j < n + 1 ↔ j < n := by omega
        simp [hj, hlt]
    rw [← hlk]
    exact hrt.trans hru

/-- The links after the detaching loop of the two sweeps: on each level below `n` the head
points past the last node found, and that node's field is null. -/
def detached (lk : ℕ → Addr → Option Addr) (pr : ℕ → Addr) (n : ℕ) :
    ℕ → Addr → Option Addr :=
  fun j a =>
    if j < n then
      if a = headAddr then lk j (pr j) else if a = pr j then none else lk j a
    else lk j a

lemma detachAll_spec (prevs : ℕ → Option Addr) (pr : ℕ → Addr)
    (hprev : ∀ i < n, prevs i = some (pr i))
    (hpr : ∀ i < n, ∃ k v m, s.shape (pr i) = some (k, v, m) ∧ i < m)
    (hhead : ∃ k v m, s.shape headAddr = some (k, v, m) ∧ n ≤ m) :
    ∃ s', detachAll prevs s n = some s' ∧ Relinked s s' (detached s.link pr n) := by
  induction n with
  | zero =>
    refine ⟨s, rfl, ?_⟩
    have hlk : detached s.link pr 0 = s.link := by
      funext j a
      simp [detached]
    rw [hlk]
    exact Relinked.refl s
  | succ n ih =>
    obtain ⟨kh, vh, mh, hsh, hmh⟩ := hhead
    obtain ⟨kp, vp, mp, hsp, hmp⟩ := hpr n (Nat.lt_succ_self n)
    obtain ⟨t, ht, hrt⟩ := ih (fun i hi => hprev i (by omega)) (fun i hi => hpr i (by omega))
      ⟨kh, vh, mh, hsh, by omega⟩
    have hnext : t.next (pr n) n = some (t.link n (pr n)) :=
      next_of_shape (s := t) (hrt.shape ▸ hsp) hmp
    obtain ⟨u, hu, hru⟩ :=
      setNext_spec (s := t) (hrt.shape ▸ hsh) (by omega : n < mh) (t.link n (pr n))
    have hlt : ∀ j, j ≠ n → (j < n + 1 ↔ j < n) := fun j hj => by omega
    by_cases hp : pr n = headAddr
    · refine ⟨u, by
        simp only [detachAll, ht, Option.bind_eq_bind, Option.bind_some,
          hprev n (Nat.lt_succ_self n), hnext, hu, if_neg (not_not.mpr hp)], ?_⟩
      have hlk : setLink t.link n headAddr (t.link n (pr n)) = detached s.link pr (n + 1) := by
        funext j a
        rw [hrt.link]
        simp only [setLink, detached]
        by_cases hj : j = n
        · subst hj
          by_cases ha : a = headAddr
          · simp [ha]
          · simp [ha, hp]
        · simp [hj, hlt j hj]
      rw [← hlk]
      exact hrt.trans hru
    · obtain ⟨w, hw, hrw⟩ :=
        setNext_spec (s := u) (hru.shape ▸ hrt.shape ▸ hsp) hmp none
      refine ⟨w, by
        simp only [detachAll, ht, Option.bind_eq_bind, Option.bind_some,
          hprev n (Nat.lt_succ_self n), hnext, hu, ne_eq, hp, not_false_eq_true, if_true,
          hw], ?_⟩
      have hlk : setLink u.link n (pr n) none = detached s.link pr (n + 1) := by
        funext j a
        rw [hru.link, hrt.link]
        simp only [setLink, detached]
        by_cases hj : j = n
        · subst hj
          by_cases ha : a = headAddr
          · simp [ha, Ne.symm hp]
          · simp [ha]
        · simp [hj, hlt j hj]
      rw [← hlk]
      exact (hrt.trans hru).trans hrw

end Loops

end Coring.Skiplist
