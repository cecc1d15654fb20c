import Coring.Skiplist.Update

/-!
# What the operations do

One lemma for each operation of the skip list: from a memory that represents a list of cells
the operation succeeds, and it leaves a memory that represents the list one expects.  An
operation that fails would have followed a null or dangling pointer or run out of steps, so
each lemma also says that this does not happen, whatever the levels of the nodes are.

The lemmas are stated with the detached nodes and the surplus of the counter of a sweep in
progress left arbitrary where an operation can be called from a sweep's callback.
-/

namespace Coring.Skiplist

variable {κ ν : Type} [LinearOrder κ] [BoundedOrder κ] [Inhabited ν]
variable {s : Skiplist κ ν} {cells front rest loose : List (Cell κ ν)} {extra : ℕ}

/-! ## The fresh list -/

lemma next_empty {i : ℕ} (hi : i < maxLevelBound) :
    (empty : Skiplist κ ν).next headAddr i = some (some tailAddr) := by
  simp [next, empty, headAddr, tailAddr, hi]

lemma rep_empty : Rep (empty : Skiplist κ ν) [] [] 0 where
  account := List.Perm.refl _
  head := by simp [shape, empty, headAddr, tailAddr]
  tail := by simp [shape, empty, tailAddr]
  tail_link := by
    intro i
    by_cases hi : i < maxLevelBound
    · simp [link, next, empty, hi]
    · simp [link, next, empty, hi]
  cell := by simp
  level := by simp
  level_le := by simp
  maxLevel := ⟨Nat.le_refl 1, (by decide : 1 ≤ 32)⟩
  lane := by
    intro i hi
    rw [lane_nil]
    change (empty : Skiplist κ ν).link i headAddr = some tailAddr
    rw [link, next_empty hi]
    rfl
  loose := rfl
  sorted := List.Pairwise.nil
  length := rfl

lemma tight_empty : Tight (empty : Skiplist κ ν) [] := .inl rfl

/-! ## Inserting -/

/-- The cells after an insertion: the new one stands before the first that is not below it. -/
def inserted (cells : List (Cell κ ν)) (c : Cell κ ν) : List (Cell κ ν) :=
  below c.key cells ++ c :: notBelow c.key cells

/-- The entry is put just before the first one whose key is not less. -/
def SortedList.put (L : List (κ × ν)) (e : κ × ν) : List (κ × ν) :=
  L.takeWhile (fun x => x.1 < e.1) ++ e :: L.dropWhile (fun x => x.1 < e.1)

omit [BoundedOrder κ] [Inhabited ν] in
lemma contents_inserted (c : Cell κ ν) :
    contents (inserted cells c) = SortedList.put (contents cells) (c.key, c.val) := by
  simp only [inserted, SortedList.put, contents, List.map_append, List.map_cons,
    List.takeWhile_map, List.dropWhile_map]
  rfl

lemma emplace_spec (h : Rep s cells loose extra) (key : κ) (val : ν) (level : Level) :
    ∃ s', s.emplace key val level = some (s', s.unused) ∧
      Rep s' (inserted cells ⟨s.unused, key, val, level.1⟩) loose extra ∧
      (Tight s cells → Tight s' (inserted cells ⟨s.unused, key, val, level.1⟩)) := by
  have hsplit : Rep s (below key cells ++ notBelow key cells) loose extra := by
    rwa [below_append_notBelow]
  -- The counter is raised first, so the search runs with one more than the cells.
  have h₁ : Rep { s with length := s.length + 1 } cells loose (extra + 1) :=
    { h with length := congrArg (· + 1) h.length }
  have hfind := findPrevs_spec h₁ key
  set s₁ : Skiplist κ ν := { s with length := s.length + 1 } with hs₁
  set s₂ : Skiplist κ ν := { s₁ with maxLevel := max s.maxLevel level.1 } with hs₂
  set s₃ := (s₂.allocate key val level.1).1 with hs₃
  have hshape : s₃.shape = Function.update s.shape s.unused (some (key, val, level.1)) :=
    allocate_shape s₂ key val level.1
  have hlink : ∀ j a, s₃.link j a = if a = s.unused then none else s.link j a :=
    allocate_link s₂ key val level.1
  have hpne : ∀ i, pred (below key cells) i ≠ s.unused := fun i =>
    (hsplit.pred_lt_unused i).ne
  obtain ⟨s', hs', hr⟩ := linkAll_spec (s := s₃) (n := level.1)
    (fun i => if s.maxLevel ≤ i ∧ i < level.1 then some headAddr
      else if i < s.maxLevel then some (pred (below key cells) i) else none)
    (pred (below key cells)) s.unused
    (by
      intro i hi
      by_cases him : s.maxLevel ≤ i
      · rw [if_pos ⟨him, hi⟩, hsplit.pred_eq_head him]
      · rw [if_neg (fun hc => him hc.1), if_pos (Nat.lt_of_not_le him)])
    (by
      intro i hi
      rw [hshape, Function.update_of_ne (hpne i)]
      exact hsplit.shape_pred (Nat.lt_of_lt_of_le hi level.2.2))
    ⟨key, val, level.1, by rw [hshape, Function.update_self], Nat.le_refl _⟩
  have hmax : s'.maxLevel = max s.maxLevel level.1 := hr.maxLevel
  refine ⟨s', ?_, ?_, ?_⟩
  · rw [emplace]
    simp only [← hs₁, hfind, Option.bind_eq_bind, Option.bind_some]
    change (linkAll _ s.unused level.1 s₃).bind _ = _
    rw [hs']
    rfl
  · refine hsplit.insert rfl level.2 (fun d hd => (lt_of_mem_below hd).le)
      (fun d hd => le_of_mem_notBelow h.sorted hd) ?_ ?_ ?_ ?_ ?_ hmax hr.length hr.unused hr.freed
    · rw [hr.shape, hshape, Function.update_self]
    · intro a ha
      rw [hr.shape, hshape, Function.update_of_ne ha]
    · intro j hj
      rw [hr.link, spliced, if_pos hj, if_pos rfl]
    · intro j hj
      rw [hr.link, spliced, if_pos hj, if_neg (hpne j).symm, if_pos rfl, hlink, if_neg (hpne j)]
    · intro j a ha hap
      by_cases hj : j < level.1
      · rw [hr.link, spliced, if_pos hj, if_neg (hap hj), if_neg ha, hlink, if_neg ha]
      · rw [hr.link, spliced, if_neg hj, hlink, if_neg ha]
  · rintro (hone | ⟨c, hc, hlevel⟩)
    · refine .inr ⟨_, List.mem_append_right _ (List.mem_cons_self ..), ?_⟩
      rw [hmax, hone, max_eq_right level.2.1]
    · rcases le_total s.maxLevel level.1 with hle | hle
      · refine .inr ⟨_, List.mem_append_right _ (List.mem_cons_self ..), ?_⟩
        rw [hmax, max_eq_right hle]
      · refine .inr ⟨c, ?_, by rw [hmax, max_eq_left hle, hlevel]⟩
        rw [← below_append_notBelow key cells] at hc
        simp only [inserted, List.mem_append, List.mem_cons] at hc ⊢
        tauto

/-! ## Looking up -/

/-- The successor, on one level, of the node that level is left at. -/
lemma Rep.next_pred (h : Rep s (front ++ rest) loose extra) {i : ℕ} (hi : i < maxLevelBound) :
    s.next (pred front i) i = some (some ((Skiplist.lane i rest).headD tailAddr)) := by
  have hseg := h.lane i hi
  rw [lane_append] at hseg
  exact next_of_link hseg.drop.next

/-- The node a search for `key` stops before: the first cell that is not below it, or the tail.
It has the key exactly when some cell does. -/
lemma Rep.next_below (h : Rep s cells loose extra) {key : κ}
    (hkey : key < ⊤ ∨ ∃ c ∈ cells, c.key = key) :
    ∃ q nd, s.next (pred (below key cells) 0) 0 = some (some q) ∧ s.mem q = some nd ∧
      (nd.key = key ↔ ∃ c ∈ cells, c.key = key) ∧
      (nd.key = key → ∃ d rest, notBelow key cells = d :: rest ∧ d.addr = q ∧ d.key = key ∧
        nd.levelNext.length = d.level) := by
  have h' : Rep s (below key cells ++ notBelow key cells) loose extra := by
    rwa [below_append_notBelow]
  have hmem : ∀ c, c ∈ cells ↔ c ∈ below key cells ∨ c ∈ notBelow key cells := fun c => by
    rw [← List.mem_append, below_append_notBelow]
  have hnext := h'.next_pred (i := 0) (by decide)
  cases hnb : notBelow key cells with
  | nil =>
    rw [hnb, lane_nil] at hnext
    obtain ⟨nd, hnd, hk, -, -⟩ := mem_of_shape h.tail
    have hnone : ¬ ∃ c ∈ cells, c.key = key := by
      rintro ⟨c, hc, rfl⟩
      rcases (hmem c).mp hc with hc | hc
      · exact absurd (lt_of_mem_below hc) (lt_irrefl _)
      · rw [hnb] at hc
        cases hc
    have hlt : key < ⊤ := hkey.resolve_right hnone
    refine ⟨tailAddr, nd, hnext, hnd, ?_, fun heq => absurd (hk.symm.trans heq) hlt.ne'⟩
    rw [hk]
    exact ⟨fun heq => absurd heq hlt.ne', fun hex => absurd hex hnone⟩
  | cons d rest =>
    have hd : d ∈ cells := (hmem d).mpr (.inr (hnb ▸ List.mem_cons_self ..))
    have hpos := h.level d (List.mem_append_left _ hd)
    rw [hnb, lane_cons_of_lt hpos.1] at hnext
    obtain ⟨nd, hnd, hk, -, hlen⟩ := mem_of_shape (h.cell d (List.mem_append_left _ hd))
    refine ⟨d.addr, nd, hnext, hnd, ⟨fun heq => ⟨d, hd, hk.symm.trans heq⟩, ?_⟩,
      fun heq => ⟨d, rest, rfl, rfl, hk.symm.trans heq, hlen⟩⟩
    rintro ⟨c, hc, rfl⟩
    have hle : c.key ≤ d.key :=
      le_of_mem_notBelow h.sorted (hnb ▸ List.mem_cons_self ..)
    rcases (hmem c).mp hc with hc | hc
    · exact absurd (lt_of_mem_below hc) (lt_irrefl _)
    · rw [hnb] at hc
      have hs := h'.sorted
      rw [hnb, List.pairwise_append, List.pairwise_cons] at hs
      rcases List.mem_cons.mp hc with rfl | hc
      · exact hk
      · exact hk.trans (le_antisymm (hs.2.1.1 c hc) hle)

lemma contains_spec (h : Rep s cells loose extra) {key : κ}
    (hkey : key < ⊤ ∨ ∃ c ∈ cells, c.key = key) :
    s.contains key = some (decide (∃ c ∈ cells, c.key = key)) := by
  obtain ⟨q, nd, hnext, hnd, hiff, -⟩ := h.next_below hkey
  rw [contains, descend_gt_spec h key]
  simp only [Option.bind_eq_bind, Option.bind_some, hnext, hnd, hiff]

lemma entriesFrom_spec (front : List (Cell κ ν)) (h : Rep s (front ++ rest) loose extra) :
    ∀ {fuel : ℕ}, rest.length < fuel →
      s.entriesFrom fuel (some ((rest.map Cell.addr).headD tailAddr)) = some (contents rest) := by
  induction rest generalizing front with
  | nil =>
    intro fuel hfuel
    obtain ⟨n, rfl⟩ := Nat.exists_eq_succ_of_ne_zero (Nat.ne_of_gt hfuel)
    rfl
  | cons c rest ih =>
    intro fuel hfuel
    obtain ⟨n, rfl⟩ := Nat.exists_eq_succ_of_ne_zero (Nat.ne_of_gt (Nat.zero_lt_of_lt hfuel))
    have hc : c ∈ front ++ c :: rest ++ loose := by simp
    have h' : Rep s ((front ++ [c]) ++ rest) loose extra := by simpa using h
    obtain ⟨nd, hnd, hk, hv, -⟩ := mem_of_shape (h.cell c hc)
    have hnext : s.next c.addr 0 = some (some ((rest.map Cell.addr).headD tailAddr)) := by
      have hz : lane 0 rest = rest.map Cell.addr :=
        lane_zero fun d hd => (h.level d (by simp [hd])).1
      have hp : pred (front ++ [c]) 0 = c.addr := by
        rw [pred, lane_append, lane_cons_of_lt (h.level c hc).1, lane_nil, List.getLastD_concat]
      have := h'.next_pred (i := 0) (by decide)
      rwa [hp, hz] at this
    have hne : ¬ (some c.addr = some tailAddr) := fun heq =>
      h.tail_ne_cell hc (Option.some_inj.mp heq)
    simp only [List.map_cons, List.headD_cons, entriesFrom, if_neg hne, Option.bind_eq_bind,
      Option.bind_some, hnd, hnext, ih _ h' (Nat.lt_of_succ_lt_succ hfuel), hk, hv, contents]

lemma entries_spec (h : Rep s cells loose extra) : s.entries = some (contents cells) := by
  have hbegin : s.begin = some (some ((cells.map Cell.addr).headD tailAddr)) := by
    have hnext := next_of_link (h.lane 0 (by decide)).next
    rwa [h.lane_zero] at hnext
  have hfuel := h.length_lt_unused
  rw [entries, hbegin]
  exact entriesFrom_spec [] h (by rw [fuel]; omega)

/-! ## Removing one -/

/-- The list between operations: nothing detached, the counter exact, the level bound tight. -/
structure Settled (s : Skiplist κ ν) (cells : List (Cell κ ν)) : Prop where
  rep : Rep s cells [] 0
  tight : Tight s cells

lemma settled_empty : Settled (empty : Skiplist κ ν) [] := ⟨rep_empty, tight_empty⟩

/-- The unlinking and the deallocation of one node. -/
lemma unlink_spec {d : Cell κ ν} (prevs : ℕ → Option Addr)
    (h : Rep s (front ++ d :: rest) loose extra)
    (hprevs : ∀ j < s.maxLevel, prevs j = some (pred front j)) :
    ∃ t s', unlinkAll prevs d.addr s d.level = some t ∧ t.deallocate d.addr = some s' ∧
      Rep s' (front ++ rest) loose (extra + 1) := by
  have hd : d ∈ front ++ d :: rest := by simp
  have hd' : d ∈ front ++ d :: rest ++ loose := List.mem_append_left _ hd
  have hshape := h.cell d hd'
  have hne : ∀ j, pred front j ≠ d.addr := fun j =>
    (h.ne_pred (List.mem_append_left _ (List.mem_cons_self ..)) j).symm
  obtain ⟨t, ht, hr⟩ := unlinkAll_spec (s := s) (n := d.level) prevs (pred front)
    d.addr (fun j hj => hprevs j (Nat.lt_of_lt_of_le hj (h.level_le d hd)))
    (fun j hj => h.shape_pred (Nat.lt_of_lt_of_le hj (h.level d hd').2))
    ⟨_, _, _, hshape, Nat.le_refl _⟩
  obtain ⟨s', hs', hshape', hlink', hmax, hlength, hunused, hfreed⟩ :=
    deallocate_spec (s := t) (p := d.addr) (by rw [hr.shape]; exact hshape)
  refine ⟨t, s', ht, hs', h.remove ?_ ?_ ?_ (hmax.trans hr.maxLevel) (hlength.trans hr.length)
    (hunused.trans hr.unused) (by rw [hfreed, hr.freed])⟩
  · intro a ha
    rw [hshape', Function.update_of_ne ha, hr.shape]
  · intro j hj
    rw [hlink' j _ (hne j), hr.link, unlinked, if_pos ⟨hj, rfl⟩]
  · intro j a ha hap
    rw [hlink' j a ha, hr.link, unlinked, if_neg fun hc => hap hc.1 hc.2]

lemma eraseOne_spec (h : Settled s cells) {key : κ}
    (hkey : key < ⊤ ∨ ∃ c ∈ cells, c.key = key) :
    ∃ s', s.eraseOne key = some (s', decide (∃ c ∈ cells, c.key = key)) ∧
      Settled s' (cells.eraseP fun c => c.key = key) := by
  obtain ⟨q, nd, hnext, hnd, hiff, hfirst⟩ := h.rep.next_below hkey
  have hpos : 0 < s.maxLevel := h.rep.maxLevel.1
  by_cases hk : nd.key = key
  · obtain ⟨d, rest, hnb, rfl, hdk, hlen⟩ := hfirst hk
    have h' : Rep s (below key cells ++ d :: rest) [] 0 := by
      rw [← hnb, below_append_notBelow]
      exact h.rep
    obtain ⟨t, s', ht, hs', hrep⟩ := unlink_spec
      (fun j => if j < s.maxLevel then some (pred (below key cells) j) else none) h'
      (fun j hj => if_pos hj)
    obtain ⟨hrep', htight⟩ := hrep.finishSweep 0 1
    refine ⟨s'.finishSweep 1, ?_, ?_⟩
    · rw [eraseOne, findPrevs_spec h.rep key]
      simp only [Option.bind_eq_bind, Option.bind_some, if_pos hpos, hnext, hnd, hk, ne_eq,
        not_true_eq_false, if_false, hlen, ht, hs', decide_eq_true (hiff.mp hk)]
      rfl
    · rw [eraseP_below hnb hdk]
      exact ⟨hrep', htight⟩
  · have hnone : ¬ ∃ c ∈ cells, c.key = key := fun hex => hk (hiff.mpr hex)
    refine ⟨s, ?_, ?_⟩
    · rw [eraseOne, findPrevs_spec h.rep key]
      simp only [Option.bind_eq_bind, Option.bind_some, if_pos hpos, hnext, hnd, ne_eq, hk,
        not_false_eq_true, if_true, decide_eq_false hnone]
    · rw [List.eraseP_of_forall_not]
      · exact h
      · intro c hc
        simpa using fun heq => hnone ⟨c, hc, heq⟩

/-! ## Removing a front part -/

lemma pred_zero_eq_head_iff (h : Rep s (front ++ rest) loose extra) :
    pred front 0 = headAddr ↔ front = [] := by
  constructor
  · intro hp
    cases front with
    | nil => rfl
    | cons c l =>
      exfalso
      have hz : lane 0 (c :: l) = (c :: l).map Cell.addr := lane_zero fun d hd =>
        (h.level d (List.mem_append_left _ (List.mem_append_left _ hd))).1
      rw [pred, hz, List.map_cons, List.getLastD_cons] at hp
      have hmem : (l.map Cell.addr).getLastD c.addr ∈ (c :: l).map Cell.addr :=
        List.getLastD_mem_cons
      obtain ⟨d, hd, hda⟩ := List.mem_map.mp hmem
      exact h.head_ne_cell (List.mem_append_left _ (List.mem_append_left _ hd))
        (hda.trans hp)
  · rintro rfl
    rfl

/-- The nodes up to `key` become the detached chain; without any the list is left as it is. -/
lemma detachLessEq_spec (h : Rep s cells [] extra) {key : κ} (hkey : key < ⊤) :
    ∃ s', s.detachLessEq key = some (s', (upTo key cells).head?.map Cell.addr) ∧
      Rep s' (beyond key cells) (upTo key cells) (extra + (upTo key cells).length) ∧
      s'.unused = s.unused ∧ (upTo key cells = [] → s' = s) := by
  have h' : Rep s (upTo key cells ++ beyond key cells) [] extra := by
    rwa [upTo_append_beyond]
  have hpos : 0 < s.maxLevel := h.maxLevel.1
  have hfind := findUpperPrevs_spec h hkey
  by_cases hnil : upTo key cells = []
  · refine ⟨s, ?_, ?_, rfl, fun _ => rfl⟩
    · rw [detachLessEq, hfind]
      simp only [Option.bind_eq_bind, Option.bind_some, if_pos hpos,
        (pred_zero_eq_head_iff h').mpr hnil, if_true]
      rw [hnil]
      rfl
    · rw [hnil, List.nil_append] at h'
      rwa [hnil]
  · have hhead : ¬ (some (pred (upTo key cells) 0) = some headAddr) := fun heq =>
      hnil ((pred_zero_eq_head_iff h').mp (Option.some_inj.mp heq))
    obtain ⟨s', hs', hr⟩ := detachAll_spec (s := s) (n := s.maxLevel)
      (fun j => if j < s.maxLevel then some (pred (upTo key cells) j) else none)
      (pred (upTo key cells)) (fun j hj => if_pos hj)
      (fun j hj => h'.shape_pred (Nat.lt_of_lt_of_le hj h.maxLevel.2))
      ⟨_, _, _, h.head, h.maxLevel.2⟩
    refine ⟨s', ?_, h'.detach hr, hr.unused, fun heq => absurd heq hnil⟩
    have hstart : s.next headAddr 0 = some ((upTo key cells).head?.map Cell.addr) := by
      have hnext := next_of_link (h'.lane 0 (by decide)).next
      rw [h'.lane_zero, List.map_append] at hnext
      cases hu : upTo key cells with
      | nil => exact absurd hu hnil
      | cons c l => rwa [hu] at hnext
    rw [detachLessEq, hfind]
    simp only [Option.bind_eq_bind, Option.bind_some, if_pos hpos, if_neg hhead, hstart, hs']

/-- A detached node can be read: its value, and the link to the next one. -/
lemma Rep.read_loose {c : Cell κ ν} (h : Rep s cells (c :: loose) extra) :
    ∃ nd, s.mem c.addr = some nd ∧ nd.val = c.val ∧
      s.next c.addr 0 = some (loose.head?.map Cell.addr) := by
  have hc : c ∈ cells ++ c :: loose := by simp
  obtain ⟨nd, hnd, -, hv, -⟩ := mem_of_shape (h.cell c hc)
  refine ⟨nd, hnd, hv, ?_⟩
  rw [next_of_shape (h.cell c hc) (h.level c hc).1, h.link_loose]

/-- It can be given back. -/
lemma Rep.deallocate_loose {c : Cell κ ν} (h : Rep s cells (c :: loose) extra) :
    ∃ s', s.deallocate c.addr = some s' ∧ Rep s' cells loose extra := by
  have hc : c ∈ cells ++ c :: loose := by simp
  obtain ⟨s', hs', hshape, hlink, hmax, hlength, hunused, hfreed⟩ :=
    deallocate_spec (h.cell c hc)
  exact ⟨s', hs', h.free_loose hshape hlink hmax hlength hunused hfreed⟩

lemma drain_spec : ∀ {loose : List (Cell κ ν)} {s : Skiplist κ ν} (fuel : ℕ) (res : List ν),
    Rep s cells loose extra → loose.length ≤ fuel →
    ∃ s', drain fuel s (loose.head?.map Cell.addr) res = some (s', res ++ loose.map Cell.val) ∧
      Rep s' cells [] extra
  | [], s, fuel, res, h, _ => ⟨s, by simp [drain], h⟩
  | c :: loose, s, fuel + 1, res, h, hfuel => by
      obtain ⟨nd, hnd, hv, hnext⟩ := h.read_loose
      obtain ⟨t, ht, hrep⟩ := h.deallocate_loose
      obtain ⟨s', hs', hrep'⟩ :=
        drain_spec fuel (res ++ [c.val]) hrep (Nat.le_of_succ_le_succ hfuel)
      refine ⟨s', ?_, hrep'⟩
      simp only [List.head?_cons, Option.map_some, drain, hnext, hnd, ht, hv,
        Option.bind_eq_bind, Option.bind_some, hs', List.append_assoc, List.map_cons,
        List.cons_append, List.nil_append]

lemma length_upTo_le_unused (h : Rep s cells loose extra) (key : κ) :
    (upTo key cells).length ≤ s.unused := by
  have h₁ := h.length_lt_unused
  have h₂ : (upTo key cells).length ≤ cells.length := (List.takeWhile_sublist _).length_le
  omega

lemma popLessEq_spec (h : Settled s cells) {key : κ} (hkey : key < ⊤) :
    ∃ s', s.popLessEq key = some (s', (upTo key cells).map Cell.val) ∧
      Settled s' (beyond key cells) := by
  obtain ⟨t, ht, hrep, hunused, hsame⟩ := detachLessEq_spec h.rep hkey
  have hle := length_upTo_le_unused h.rep key
  rw [popLessEq, ht]
  cases hu : upTo key cells with
  | nil =>
    have hb : beyond key cells = cells := by
      have happ := upTo_append_beyond key cells
      rwa [hu] at happ
    rw [hsame hu, hb]
    exact ⟨s, rfl, h⟩
  | cons c l =>
    rw [hu] at hrep hle
    obtain ⟨s', hs', hrep'⟩ := drain_spec t.fuel [] hrep
      (by rw [fuel, hunused]; exact hle)
    obtain ⟨hrep'', htight⟩ := hrep'.finishSweep 0 (c :: l).length
    refine ⟨s'.finishSweep (c :: l).length, ?_, hrep'', htight⟩
    simp only [List.head?_cons, Option.map_some, Option.bind_eq_bind, Option.bind_some] at hs' ⊢
    simp only [hs', Option.bind_some, List.nil_append, List.length_map]

/-! ## Sweeping with a callback -/

/-- The entry of an insertion. -/
def Insertion.entry (i : Insertion κ ν) : κ × ν := (i.1, i.2.1)

/-- The entries the callback inserts when it is invoked on these values, for the `n`-th time
first. -/
def insertedBy (f : ℕ → ν → List (Insertion κ ν)) : ℕ → List ν → List (κ × ν)
  | _, [] => []
  | n, v :: vs => (f n v).map Insertion.entry ++ insertedBy f (n + 1) vs

lemma emplaceAll_spec : ∀ (ins : List (Insertion κ ν)) {s : Skiplist κ ν}
    {cells : List (Cell κ ν)}, Rep s cells loose extra →
    ∃ s' cells', s.emplaceAll ins = some s' ∧ Rep s' cells' loose extra ∧
      contents cells' = (ins.map Insertion.entry).foldl SortedList.put (contents cells)
  | [], s, cells, h => ⟨s, cells, rfl, h, rfl⟩
  | (key, val, level) :: ins, s, cells, h => by
      obtain ⟨t, ht, hrep, -⟩ := emplace_spec h key val level
      obtain ⟨s', cells', hs', hrep', hcontents⟩ := emplaceAll_spec ins hrep
      refine ⟨s', cells', ?_, hrep', ?_⟩
      · rw [emplaceAll, ht]
        exact hs'
      · rw [hcontents, contents_inserted]
        rfl

/-- The callback is invoked on the detached values in their order, whatever it inserts, and what
it inserts is put into the list. -/
lemma sweep_spec (f : ℕ → ν → List (Insertion κ ν)) :
    ∀ {loose : List (Cell κ ν)} {s : Skiplist κ ν} {cells : List (Cell κ ν)} (fuel : ℕ)
      (visited : List ν), Rep s cells loose extra → loose.length ≤ fuel →
      ∃ s' cells', sweep f fuel s (loose.head?.map Cell.addr) visited
          = some (s', visited ++ loose.map Cell.val) ∧ Rep s' cells' [] extra ∧
        contents cells' = (insertedBy f visited.length (loose.map Cell.val)).foldl SortedList.put
          (contents cells)
  | [], s, cells, fuel, visited, h, _ => ⟨s, cells, by simp [sweep], h, rfl⟩
  | c :: loose, s, cells, fuel + 1, visited, h, hfuel => by
      obtain ⟨nd, hnd, hv, hnext⟩ := h.read_loose
      obtain ⟨t, cells₁, ht, hrep₁, hcontents₁⟩ :=
        emplaceAll_spec (f visited.length c.val) h
      obtain ⟨u, hu, hrep₂⟩ := hrep₁.deallocate_loose
      obtain ⟨s', cells', hs', hrep', hcontents⟩ := sweep_spec f fuel
        (visited ++ [c.val]) hrep₂ (Nat.le_of_succ_le_succ hfuel)
      refine ⟨s', cells', ?_, hrep', ?_⟩
      · simp only [List.head?_cons, Option.map_some, sweep, hnext, hnd, hv, ht, hu,
          Option.bind_eq_bind, Option.bind_some, hs', List.append_assoc, List.map_cons,
          List.cons_append, List.nil_append]
      · rw [hcontents, hcontents₁, List.map_cons, insertedBy, List.foldl_append,
          List.length_append, List.length_singleton]

lemma doLessEqThenPop_spec (h : Settled s cells) {key : κ} (hkey : key < ⊤)
    (f : ℕ → ν → List (Insertion κ ν)) :
    ∃ s' cells', s.doLessEqThenPop key f = some (s', (upTo key cells).map Cell.val) ∧
      Settled s' cells' ∧
      contents cells' = (insertedBy f 0 ((upTo key cells).map Cell.val)).foldl SortedList.put
        (contents (beyond key cells)) := by
  obtain ⟨t, ht, hrep, hunused, hsame⟩ := detachLessEq_spec h.rep hkey
  have hle := length_upTo_le_unused h.rep key
  rw [doLessEqThenPop, ht]
  cases hu : upTo key cells with
  | nil =>
    have hb : beyond key cells = cells := by
      have happ := upTo_append_beyond key cells
      rwa [hu] at happ
    rw [hsame hu, hb]
    exact ⟨s, cells, rfl, h, rfl⟩
  | cons c l =>
    rw [hu] at hrep hle
    obtain ⟨s', cells', hs', hrep', hcontents⟩ := sweep_spec f t.fuel [] hrep
      (by rw [fuel, hunused]; exact hle)
    obtain ⟨hrep'', htight⟩ := hrep'.finishSweep 0 (c :: l).length
    refine ⟨s'.finishSweep (c :: l).length, cells', ?_, ⟨hrep'', htight⟩, hcontents⟩
    simp only [List.head?_cons, Option.map_some, Option.bind_eq_bind, Option.bind_some] at hs' ⊢
    simp only [hs', Option.bind_some, List.nil_append, List.length_map]

end Coring.Skiplist
