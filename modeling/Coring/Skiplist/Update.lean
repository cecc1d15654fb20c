import Coring.Skiplist.Rep

/-!
# Changes to a represented list

Three changes are made to a skip list: a node is spliced in, a node is taken out, a front part
is detached and later freed node by node.  Each lemma here says, in terms of shapes and links
only, what the new memory has to look like so that it represents the changed list of cells.
The operations of the source meet these descriptions by the formulas for their loops; this
file does not mention them.
-/

namespace Coring.Skiplist

variable {κ ν : Type} [LinearOrder κ] [BoundedOrder κ] [Inhabited ν]
variable {s s' : Skiplist κ ν} {cells front rest loose : List (Cell κ ν)} {c : Cell κ ν}
variable {extra : ℕ}

namespace Rep

lemma lt_unused_of_mem_lane (h : Rep s cells loose extra) {a : Addr} {i : ℕ}
    (ha : a ∈ headAddr :: Skiplist.lane i cells) : a < s.unused := by
  rcases List.mem_cons.mp ha with rfl | ha
  · exact h.head_lt_unused
  · obtain ⟨c, hc, -, rfl⟩ := mem_lane.mp ha
    exact h.addr_lt_unused (List.mem_append_left _ hc)

/-- A node at the back, or a detached one, is not a predecessor. -/
lemma ne_pred (h : Rep s (front ++ rest) loose extra) {d : Cell κ ν} (hd : d ∈ rest ++ loose)
    (i : ℕ) : d.addr ≠ pred front i := by
  intro heq
  have hd' : d ∈ front ++ rest ++ loose := by
    rw [List.append_assoc]
    exact List.mem_append_right _ hd
  rcases pred_eq_head_or_mem front i with hp | ⟨c, hc, -, hp⟩
  · exact h.head_ne_cell hd' (heq.trans hp)
  · have hnd := h.nodup_cells
    rw [List.append_assoc, List.map_append] at hnd
    exact List.disjoint_of_nodup_append hnd (List.mem_map_of_mem hc)
      (hp.trans heq.symm ▸ List.mem_map_of_mem hd)

/-! ## Splicing in -/

lemma insert (h : Rep s (front ++ rest) loose extra) (haddr : c.addr = s.unused)
    (hlevel : 1 ≤ c.level ∧ c.level ≤ maxLevelBound)
    (hfront : ∀ d ∈ front, d.key ≤ c.key) (hrest : ∀ d ∈ rest, c.key ≤ d.key)
    (hnew : s'.shape c.addr = some (c.key, c.val, c.level))
    (hold : ∀ a, a ≠ c.addr → s'.shape a = s.shape a)
    (hpred : ∀ j < c.level, s'.link j (pred front j) = some c.addr)
    (hcur : ∀ j < c.level, s'.link j c.addr = s.link j (pred front j))
    (hframe : ∀ j a, a ≠ c.addr → (j < c.level → a ≠ pred front j) →
      s'.link j a = s.link j a)
    (hmax : s'.maxLevel = max s.maxLevel c.level) (hlength : s'.length = s.length + 1)
    (hunused : s'.unused = s.unused + 1) (hfreed : s'.freed = s.freed) :
    Rep s' (front ++ c :: rest) loose extra where
  account := by
    have hp : (c.addr :: headAddr :: tailAddr ::
        ((front ++ rest ++ loose).map Cell.addr ++ s.freed)).Perm
        (List.range s.unused ++ [s.unused]) := by
      rw [haddr]
      exact (h.account.cons s.unused).trans (List.perm_append_singleton _ _).symm
    rw [hunused, hfreed, List.range_succ]
    refine List.Perm.trans ?_ hp
    have hmid := @List.perm_middle _ c.addr
      (headAddr :: tailAddr :: front.map Cell.addr)
      (rest.map Cell.addr ++ (loose.map Cell.addr ++ s.freed))
    simpa only [List.map_append, List.map_cons, List.append_assoc, List.cons_append] using hmid
  head := by rw [hold _ (haddr ▸ h.head_lt_unused.ne), h.head]
  tail := by rw [hold _ (haddr ▸ h.tail_lt_unused.ne), h.tail]
  tail_link := by
    intro i
    rw [hframe i _ (haddr ▸ h.tail_lt_unused.ne) (fun _ => h.tail_ne_pred i), h.tail_link i]
  cell := by
    intro d hd
    by_cases hdc : d = c
    · rw [hdc, hnew]
    · have hd' : d ∈ front ++ rest ++ loose := by
        simp only [List.mem_append, List.mem_cons, hdc, false_or] at hd ⊢
        exact hd
      rw [hold _ (haddr ▸ (h.addr_lt_unused hd').ne), h.cell d hd']
  level := by
    intro d hd
    by_cases hdc : d = c
    · exact hdc ▸ hlevel
    · refine h.level d ?_
      simp only [List.mem_append, List.mem_cons, hdc, false_or] at hd ⊢
      exact hd
  level_le := by
    intro d hd
    rw [hmax]
    by_cases hdc : d = c
    · exact hdc ▸ le_max_right _ _
    · refine (h.level_le d ?_).trans (le_max_left _ _)
      simp only [List.mem_append, List.mem_cons, hdc, false_or] at hd ⊢
      exact hd
  maxLevel := by
    rw [hmax]
    exact ⟨h.maxLevel.1.trans (le_max_left _ _), max_le h.maxLevel.2 hlevel.2⟩
  lane := by
    intro i hi
    have hseg := h.lane i hi
    have hnd := h.nodup_lane i
    have hlt : ∀ b ∈ headAddr :: (Skiplist.lane i front ++ Skiplist.lane i rest),
        b ≠ c.addr := fun b hb =>
      haddr ▸ (h.lt_unused_of_mem_lane (i := i) (by rwa [lane_append])).ne
    rw [lane_append] at hseg hnd
    rw [lane_append]
    by_cases hic : i < c.level
    · rw [lane_cons_of_lt hic]
      exact hseg.insert hnd (hpred i hic) (hcur i hic)
        (fun b hb hbp => hframe i b (hlt b hb) (fun _ => hbp))
    · rw [lane_cons_of_le (Nat.le_of_not_lt hic)]
      exact hseg.congr fun b hb => hframe i b (hlt b hb) (fun hlt => absurd hlt hic)
  loose := by
    refine h.loose.congr fun a ha => ?_
    obtain ⟨d, hd, rfl⟩ := List.mem_map.mp ha
    exact hframe 0 _ (haddr ▸ (h.addr_lt_unused (List.mem_append_right _ hd)).ne)
      (fun _ => h.ne_pred (List.mem_append_right _ hd) 0)
  sorted := pairwise_append_cons h.sorted hfront hrest
  length := by
    rw [hlength, h.length]
    simp only [List.length_append, List.length_cons]
    omega

/-! ## Taking out -/

lemma remove {d : Cell κ ν} (h : Rep s (front ++ d :: rest) loose extra)
    (hold : ∀ a, a ≠ d.addr → s'.shape a = s.shape a)
    (hpred : ∀ j < d.level, s'.link j (pred front j) = s.link j d.addr)
    (hframe : ∀ j a, a ≠ d.addr → (j < d.level → a ≠ pred front j) →
      s'.link j a = s.link j a)
    (hmax : s'.maxLevel = s.maxLevel) (hlength : s'.length = s.length)
    (hunused : s'.unused = s.unused) (hfreed : s'.freed = s.freed ++ [d.addr]) :
    Rep s' (front ++ rest) loose (extra + 1) := by
  have hd : d ∈ front ++ d :: rest := by simp
  have hsub : ∀ c ∈ front ++ rest ++ loose, c ∈ front ++ d :: rest ++ loose := by
    intro c hc
    simp only [List.mem_append, List.mem_cons] at hc ⊢
    tauto
  have hne : ∀ c ∈ front ++ rest ++ loose, c.addr ≠ d.addr := by
    have hnd := h.nodup_cells
    rw [List.append_assoc, List.cons_append] at hnd
    rw [List.append_assoc]
    exact addr_ne_of_middle hnd
  constructor
  case account =>
    rw [hunused, hfreed]
    refine List.Perm.trans ?_ h.account
    refine ((List.Perm.cons _ ?_)).cons _
    rw [List.append_assoc front, List.append_assoc front, List.cons_append]
    exact perm_freed front (rest ++ loose) d s.freed
  case head =>
    rw [hold _ (h.head_ne_cell (List.mem_append_left _ hd)).symm, h.head]
  case tail =>
    rw [hold _ (h.tail_ne_cell (List.mem_append_left _ hd)).symm, h.tail]
  case tail_link =>
    intro i
    rw [hframe i _ (h.tail_ne_cell (List.mem_append_left _ hd)).symm
      (fun _ => h.tail_ne_pred i), h.tail_link i]
  case cell =>
    intro c hc
    rw [hold _ (hne c hc), h.cell c (hsub c hc)]
  case level => exact fun c hc => h.level c (hsub c hc)
  case level_le =>
    intro c hc
    rw [hmax]
    refine h.level_le c ?_
    simp only [List.mem_append, List.mem_cons] at hc ⊢
    tauto
  case maxLevel =>
    rw [hmax]
    exact h.maxLevel
  case lane =>
    intro i hi
    have hseg := h.lane i hi
    have hnd := h.nodup_lane i
    have hlt : ∀ b ∈ headAddr :: (Skiplist.lane i front ++ Skiplist.lane i rest),
        b ≠ d.addr := by
      intro b hb
      rw [← lane_append] at hb
      rcases List.mem_cons.mp hb with rfl | hb
      · exact (h.head_ne_cell (List.mem_append_left _ hd)).symm
      · obtain ⟨c, hc, -, rfl⟩ := mem_lane.mp hb
        exact hne c (List.mem_append_left _ hc)
    rw [lane_append] at hseg hnd ⊢
    by_cases hid : i < d.level
    · rw [lane_cons_of_lt hid] at hseg hnd
      exact hseg.remove hnd (hpred i hid)
        (fun b hb hbp => hframe i b (hlt b hb) (fun _ => hbp))
    · rw [lane_cons_of_le (Nat.le_of_not_lt hid)] at hseg
      exact hseg.congr fun b hb => hframe i b (hlt b hb) (fun hlt => absurd hlt hid)
  case loose =>
    refine h.loose.congr fun a ha => ?_
    obtain ⟨c, hc, rfl⟩ := List.mem_map.mp ha
    exact hframe 0 _ (hne c (List.mem_append_right _ hc))
      (fun _ => h.ne_pred (List.mem_append_right _ hc) 0)
  case sorted =>
    exact h.sorted.sublist ((List.Sublist.refl front).append (List.sublist_cons_self d rest))
  case length =>
    rw [hlength, h.length]
    simp only [List.length_append, List.length_cons]
    omega

/-! ## Detaching and freeing a front part -/

/-- On level `0` every node of the front part stands, so the last of them is the predecessor. -/
lemma getLast?_front (h : Rep s (front ++ rest) loose extra) {a : Addr}
    (ha : a ∈ (front.map Cell.addr).getLast?) : a = pred front 0 := by
  have hz : Skiplist.lane 0 front = front.map Cell.addr :=
    Skiplist.lane_zero fun c hc =>
      (h.level c (List.mem_append_left _ (List.mem_append_left _ hc))).1
  rw [pred, hz, List.getLastD_eq_getLast?, ha]
  rfl

lemma detach (h : Rep s (front ++ rest) [] extra)
    (hr : Relinked s s' (detached s.link (pred front) s.maxLevel)) :
    Rep s' rest front (extra + front.length) := by
  have hsub : ∀ c ∈ rest ++ front, c ∈ front ++ rest ++ [] := by
    intro c hc
    simp only [List.mem_append, List.not_mem_nil, or_false] at hc ⊢
    exact hc.symm
  have hfront : ∀ c ∈ front, c ∈ front ++ rest ++ [] := fun c hc =>
    hsub c (List.mem_append_right _ hc)
  constructor
  case account =>
    rw [hr.unused, hr.freed]
    refine List.Perm.trans ?_ h.account
    refine ((List.Perm.cons _ ?_)).cons _
    refine List.Perm.append_right _ (List.Perm.map _ ?_)
    rw [List.append_nil]
    exact List.perm_append_comm
  case head => rw [hr.shape, h.head]
  case tail => rw [hr.shape, h.tail]
  case tail_link =>
    intro i
    have hne : tailAddr ≠ headAddr := by decide
    rw [hr.link, detached, if_neg hne, if_neg (h.tail_ne_pred i), h.tail_link i, ite_self]
  case cell =>
    intro c hc
    rw [hr.shape, h.cell c (hsub c hc)]
  case level => exact fun c hc => h.level c (hsub c hc)
  case level_le =>
    intro c hc
    rw [hr.maxLevel]
    exact h.level_le c (List.mem_append_right _ hc)
  case maxLevel =>
    rw [hr.maxLevel]
    exact h.maxLevel
  case lane =>
    intro i hi
    have hseg := h.lane i hi
    rw [lane_append] at hseg
    -- Above the level bound the front part has no nodes and nothing was relinked.
    by_cases him : i < s.maxLevel
    · refine hseg.cut ?_ fun b hb => ?_
      · rw [hr.link, detached, if_pos him, if_pos rfl, pred]
      · obtain ⟨c, hc, -, rfl⟩ := mem_lane.mp hb
        have hch := h.head_ne_cell (hsub c (List.mem_append_left _ hc))
        have hpred := h.ne_pred (List.mem_append_left [] hc) i
        rw [hr.link, detached, if_pos him, if_neg hch, if_neg hpred]
    · have hnil : Skiplist.lane i front = [] := lane_eq_nil fun c hc =>
        (h.level_le c (List.mem_append_left _ hc)).trans (Nat.le_of_not_lt him)
      rw [hnil, List.nil_append] at hseg
      exact hseg.congr fun b _ => by rw [hr.link, detached, if_neg him]
  case loose =>
    have hpos : 0 < s.maxLevel := h.maxLevel.1
    have hseg := h.lane 0 (by decide)
    rw [h.lane_zero, List.map_append] at hseg
    have hnd := h.nodup_cells
    rw [List.append_nil, List.map_append] at hnd
    have hnull := hseg.nullSeg (s'.link 0) hnd ?_ ?_
    · rwa [List.head?_map] at hnull
    · intro a ha
      obtain ⟨c, hc, rfl⟩ := List.mem_map.mp (List.mem_of_getLast? ha)
      rw [hr.link, detached, if_pos hpos, if_neg (h.head_ne_cell (hfront c hc)),
        if_pos (h.getLast?_front ha)]
    · intro b hb hbl
      obtain ⟨c, hc, rfl⟩ := List.mem_map.mp hb
      rw [hr.link, detached, if_pos hpos, if_neg (h.head_ne_cell (hfront c hc)), if_neg]
      intro hbp
      refine hbl ?_
      have hz : Skiplist.lane 0 front = front.map Cell.addr :=
        Skiplist.lane_zero fun c hc => (h.level c (hfront c hc)).1
      rw [pred, hz, List.getLastD_eq_getLast?] at hbp
      cases hgl : (front.map Cell.addr).getLast? with
      | none =>
        rw [List.getLast?_eq_none_iff] at hgl
        rw [hgl] at hb
        cases hb
      | some a => rw [hbp, hgl]; rfl
  case sorted => exact (List.pairwise_append.mp h.sorted).2.1
  case length =>
    rw [hr.length, h.length, List.length_append]
    omega

lemma free_loose (h : Rep s cells (c :: loose) extra)
    (hold : s'.shape = Function.update s.shape c.addr none)
    (hlink : ∀ j a, a ≠ c.addr → s'.link j a = s.link j a)
    (hmax : s'.maxLevel = s.maxLevel) (hlength : s'.length = s.length)
    (hunused : s'.unused = s.unused) (hfreed : s'.freed = s.freed ++ [c.addr]) :
    Rep s' cells loose extra := by
  have hc : c ∈ cells ++ c :: loose := by simp
  have hsub : ∀ d ∈ cells ++ loose, d ∈ cells ++ c :: loose := by
    intro d hd
    simp only [List.mem_append, List.mem_cons] at hd ⊢
    tauto
  have hne : ∀ d ∈ cells ++ loose, d.addr ≠ c.addr := addr_ne_of_middle h.nodup_cells
  constructor
  case account =>
    rw [hunused, hfreed]
    refine List.Perm.trans ?_ h.account
    exact ((perm_freed cells loose c s.freed).cons _).cons _
  case head => rw [hold, Function.update_of_ne (h.head_ne_cell hc).symm, h.head]
  case tail => rw [hold, Function.update_of_ne (h.tail_ne_cell hc).symm, h.tail]
  case tail_link =>
    intro i
    rw [hlink i _ (h.tail_ne_cell hc).symm, h.tail_link i]
  case cell =>
    intro d hd
    rw [hold, Function.update_of_ne (hne d hd), h.cell d (hsub d hd)]
  case level => exact fun d hd => h.level d (hsub d hd)
  case level_le =>
    intro d hd
    rw [hmax]
    exact h.level_le d hd
  case maxLevel =>
    rw [hmax]
    exact h.maxLevel
  case lane =>
    intro i hi
    refine (h.lane i hi).congr fun a ha => hlink i a ?_
    rcases List.mem_cons.mp ha with rfl | ha
    · exact (h.head_ne_cell hc).symm
    · obtain ⟨d, hd, -, rfl⟩ := mem_lane.mp ha
      exact hne d (List.mem_append_left _ hd)
  case loose =>
    have hl : NullSeg (s.link 0) (s.link 0 c.addr) (loose.map Cell.addr) := h.loose.2
    have hhead := hl.head
    rw [List.head?_map] at hhead
    rw [hhead] at hl
    refine hl.congr fun a ha => hlink 0 a ?_
    obtain ⟨d, hd, rfl⟩ := List.mem_map.mp ha
    exact hne d (List.mem_append_right _ hd)
  case sorted => exact h.sorted
  case length => rw [hlength, h.length]

/-- The link that leads from a detached node to the next one. -/
lemma link_loose (h : Rep s cells (c :: loose) extra) :
    s.link 0 c.addr = loose.head?.map Cell.addr := by
  have hl : NullSeg (s.link 0) (s.link 0 c.addr) (loose.map Cell.addr) := h.loose.2
  rw [hl.head, List.head?_map]

/-! ## Lowering the level bound -/

/-- The head points to the tail on a level exactly when no node stands there. -/
lemma link_head_eq_tail_iff (h : Rep s cells loose extra) {i : ℕ} (hi : i < maxLevelBound) :
    s.next headAddr i = some (some tailAddr) ↔ ∀ c ∈ cells, c.level ≤ i := by
  have hnext := next_of_link (h.lane i hi).next
  rw [hnext, Option.some_inj, Option.some_inj]
  cases hl : Skiplist.lane i cells with
  | nil =>
    refine ⟨fun _ c hc => ?_, fun _ => rfl⟩
    by_contra hlt
    have : c.addr ∈ Skiplist.lane i cells := mem_lane.mpr ⟨c, hc, by omega, rfl⟩
    rw [hl] at this
    cases this
  | cons a l =>
    have ha : a ∈ Skiplist.lane i cells := hl ▸ List.mem_cons_self ..
    obtain ⟨c, hc, hlt, rfl⟩ := mem_lane.mp ha
    constructor
    · intro heq
      exact absurd heq (h.tail_ne_cell (List.mem_append_left _ hc))
    · intro hall
      have := hall c hc
      omega

lemma loweredLevel_spec (h : Rep s cells loose extra) : ∀ {m : ℕ}, 1 ≤ m →
    m ≤ maxLevelBound → (∀ c ∈ cells, c.level ≤ m) →
    1 ≤ s.loweredLevel m ∧ s.loweredLevel m ≤ m ∧ (∀ c ∈ cells, c.level ≤ s.loweredLevel m) ∧
      (s.loweredLevel m = 1 ∨ ∃ c ∈ cells, c.level = s.loweredLevel m)
  | 1, _, _, hall => ⟨Nat.le_refl 1, Nat.le_refl 1, hall, .inl rfl⟩
  | m + 2, _, hm, hall => by
      rw [loweredLevel]
      split
      · next hlink =>
        have hall' := (h.link_head_eq_tail_iff (by omega)).mp hlink
        obtain ⟨h₁, h₂, h₃, h₄⟩ := loweredLevel_spec h (m := m + 1) (by omega) (by omega) hall'
        exact ⟨h₁, by omega, h₃, h₄⟩
      · next hlink =>
        rw [h.link_head_eq_tail_iff (by omega)] at hlink
        push Not at hlink
        obtain ⟨c, hc, hlt⟩ := hlink
        exact ⟨by omega, Nat.le_refl _, hall,
          .inr ⟨c, hc, Nat.le_antisymm (hall c hc) hlt⟩⟩

/-- The end of a removal: with the level bound lowered and the removed nodes subtracted, the
list is again as it is between operations. -/
lemma finishSweep (extra cnt : ℕ) (h : Rep s cells loose (extra + cnt)) :
    Rep (s.finishSweep cnt) cells loose extra ∧ Tight (s.finishSweep cnt) cells := by
  obtain ⟨h₁, h₂, h₃, h₄⟩ := h.loweredLevel_spec h.maxLevel.1 h.maxLevel.2 h.level_le
  refine ⟨?_, h₄⟩
  exact {
    account := h.account
    head := h.head
    tail := h.tail
    tail_link := h.tail_link
    cell := h.cell
    level := h.level
    level_le := h₃
    maxLevel := ⟨h₁, h₂.trans h.maxLevel.2⟩
    lane := h.lane
    loose := h.loose
    sorted := h.sorted
    length := by
      have := h.length
      simp only [Skiplist.finishSweep, lowerMaxLevel]
      omega }

end Rep

end Coring.Skiplist
