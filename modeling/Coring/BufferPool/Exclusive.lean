import Coring.BufferPool.Selection

/-!
# What a selected buffer shows

The blocks of a pool are never made anew: a block that comes back is cleared, and the next read
into it only adds to its write index.  That a resource shows what its own read stored, and
nothing of what was there before, rests on an invariant over the life of the pool: a block no
resource owns has both indices at zero, and the bytes of a completion that is not handled yet
are untouched, because the kernel stores to a block only for the one read that has it selected.
-/

namespace Coring.BufferPool

/-- Beyond `Inv`: no buffer is in two places, a block without an owner is as it was made, and
what a completed read has stored is still there. -/
structure Clean (c : Call) (s : State) : Prop extends Inv c s where
  places_le : ∀ b, s.places b ≤ 1
  idle : ∀ i b, s.group.blocks[i]? = some b → owners s.resources i = 0 →
    b = block c.base c.n c.gid i
  stored : ∀ (r : ℕ) (res : ℤ) (flags : ℕ) (stored : List UInt8),
    s.reads[r]? = some (.completed res flags stored) → 0 < res →
      load s.memory (c.base + flagOf flags * c.n) stored.length = stored

section

variable {c : Call} {s s' : State} {a : Action}

/-! ## Owners and selectors -/

lemma owners_pos {l : List (Option ℕ)} {k i : ℕ} (h : l[k]? = some (some i)) :
    0 < owners l i :=
  List.countP_pos_iff.mpr ⟨some i, List.mem_of_getElem? h, by simp⟩

lemma selectors_pos {l : List ReadState} {r b : ℕ} {x : ReadState} (h : l[r]? = some x)
    (hx : x.buffer = some b) : 0 < selectors l b :=
  List.countP_pos_iff.mpr ⟨x, List.mem_of_getElem? h, by simpa using hx⟩

/-- Two reads do not have one buffer. -/
lemma Clean.read_unique (hC : Clean c s) {r r' b : ℕ} {x x' : ReadState}
    (h : s.reads[r]? = some x) (h' : s.reads[r']? = some x') (hx : x.buffer = some b)
    (hx' : x'.buffer = some b) : r = r' := by
  by_contra hne
  have hset := selectors_set h .returned b
  rw [hx, if_pos rfl, buffer_returned] at hset
  have hother : (s.reads.set r .returned)[r']? = some x' := by rw [List.getElem?_set_ne hne, h']
  have hpos := selectors_pos hother hx'
  have hle := hC.places_le b
  simp only [State.places, reduceCtorEq, if_false] at hle hset
  omega

/-- A buffer selected for a read has no owner. -/
lemma Clean.no_owner (hC : Clean c s) {r b : ℕ} {x : ReadState} (h : s.reads[r]? = some x)
    (hx : x.buffer = some b) : owners s.resources b = 0 := by
  have hpos := selectors_pos h hx
  have hle := hC.places_le b
  simp only [State.places] at hle
  omega

/-- Different blocks lie side by side. -/
lemma block_disjoint (base : ℕ) {i j n : ℕ} (h : i ≠ j) :
    base + i * n + n ≤ base + j * n ∨ base + j * n + n ≤ base + i * n := by
  rcases Nat.lt_or_gt_of_ne h with hlt | hlt
  · have hle := Nat.mul_le_mul_right n (Nat.succ_le_of_lt hlt)
    rw [Nat.succ_mul] at hle
    omega
  · have hle := Nat.mul_le_mul_right n (Nat.succ_le_of_lt hlt)
    rw [Nat.succ_mul] at hle
    omega

/-! ## A step keeps the blocks clean -/

lemma idle_effect (hC : Clean c s) (h : Effect s a s') (i : ℕ) (b : SelectedBuffer)
    (hb : s'.group.blocks[i]? = some b) (hown : owners s'.resources i = 0) :
    b = block c.base c.n c.gid i := by
  cases h with
  | startRead => exact hC.idle i b hb hown
  | select => exact hC.idle i b hb hown
  | completeUnselected => exact hC.idle i b hb hown
  | complete => exact hC.idle i b hb hown
  | threw => exact hC.idle i b hb hown
  | @returned r res flags stored b' hr hres hb' =>
    rw [owners_concat] at hown
    have hne : ¬ flagOf flags = i := by
      intro heq
      rw [heq, if_pos rfl] at hown
      cases hown
    simp only [Group.setBlock, List.getElem?_set_ne hne] at hb
    exact hC.idle i b hb (by omega)
  | move hk => exact hC.idle i b hb (owners_moved hk i ▸ hown)
  | dropNull hk =>
    have hres := owners_eraseIdx hk i
    exact hC.idle i b hb (by simpa [hown] using hres.symm)
  | @drop k j b' hk hb' =>
    have hlt := (List.getElem?_eq_some_iff.mp hb').1
    have hres := owners_eraseIdx hk i
    simp only [State.returnBlock, Group.setBlock] at hb
    by_cases hji : j = i
    · subst hji
      rw [List.getElem?_set_self hlt, Option.some_inj] at hb
      rw [← hb]
      exact hC.blocks j b' hb'
    · rw [List.getElem?_set_ne hji] at hb
      rw [if_neg (by simpa using hji), Nat.add_zero] at hres
      exact hC.idle i b hb (hres ▸ hown)
  | @use _ k j b' d ha hk hb' =>
    have hfree : owners s.resources i = 0 := hown
    have hne : ¬ j = i := by
      intro heq
      have hpos := owners_pos hk
      rw [heq] at hpos
      omega
    simp only [Group.setBlock, List.getElem?_set_ne hne] at hb
    exact hC.idle i b hb hown
  | provide => exact hC.idle i b hb hown

/-- A completed read of the list with one entry replaced is the new entry, or was there before. -/
lemma getElem?_set_read {l : List ReadState} {r r' : ℕ} {x y : ReadState}
    (h : (l.set r x)[r']? = some y) : (r = r' ∧ x = y) ∨ (r ≠ r' ∧ l[r']? = some y) := by
  by_cases hr : r = r'
  · subst hr
    rw [List.getElem?_set_self'] at h
    obtain ⟨z, -, hz⟩ := Option.map_eq_some_iff.mp h
    exact .inl ⟨rfl, hz⟩
  · rw [List.getElem?_set_ne hr] at h
    exact .inr ⟨hr, h⟩

lemma stored_effect (hC : Clean c s) (h : Effect s a s') {r' : ℕ} {res' : ℤ} {flags' : ℕ}
    {stored' : List UInt8} (hr' : s'.reads[r']? = some (.completed res' flags' stored'))
    (hres' : 0 < res') :
    load s'.memory (c.base + flagOf flags' * c.n) stored'.length = stored' := by
  cases h with
  | startRead =>
    simp only [List.getElem?_append] at hr'
    split at hr'
    · exact hC.stored r' res' flags' stored' hr' hres'
    · have hmem := List.mem_singleton.mp (List.mem_of_getElem? hr')
      cases hmem
  | select =>
    rcases getElem?_set_read hr' with ⟨-, hx⟩ | ⟨-, hold⟩
    · cases hx
    · exact hC.stored r' res' flags' stored' hold hres'
  | completeUnselected hr hres =>
    rcases getElem?_set_read hr' with ⟨-, hx⟩ | ⟨-, hold⟩
    · cases hx
      exact absurd hres' (Int.not_lt.mpr hres)
    · exact hC.stored r' res' flags' stored' hold hres'
  | @complete r res bytes buf hr hmay =>
    have hbuf : c.Known buf := hC.regular hr
    rcases getElem?_set_read hr' with ⟨-, hx⟩ | ⟨hne, hold⟩
    · cases hx
      rw [flagOf_cqeFlags, ← hbuf.addr]
      exact load_store_self s.memory buf.addr stored'
    · -- the other read has another block
      have hbuffer := hC.buffer_of_pos hold hres'
      have hdiff : flagOf flags' ≠ buf.bid := fun heq =>
        hne (hC.read_unique hr hold (buffer_selected buf) (heq ▸ hbuffer))
      rcases hC.regular hold with ⟨-, hle⟩ | ⟨b, -, rfl, hlen, -⟩
      · exact absurd hres' (Int.not_lt.mpr hle)
      · have hbytes : bytes.length ≤ c.n := hbuf.len ▸ hmay.1
        have hdisj : c.base + flagOf (cqeFlags b) * c.n + stored'.length ≤ buf.addr ∨
            buf.addr + bytes.length ≤ c.base + flagOf (cqeFlags b) * c.n := by
          rw [hbuf.addr]
          rcases block_disjoint c.base (n := c.n) hdiff with hlo | hhi
          · exact .inl (by omega)
          · exact .inr (by omega)
        rw [load_store_of_disjoint s.memory hdisj]
        exact hC.stored r' res' _ stored' hold hres'
  | threw =>
    rcases getElem?_set_read hr' with ⟨-, hx⟩ | ⟨-, hold⟩
    · cases hx
    · exact hC.stored r' res' flags' stored' hold hres'
  | returned =>
    rcases getElem?_set_read hr' with ⟨-, hx⟩ | ⟨-, hold⟩
    · cases hx
    · exact hC.stored r' res' flags' stored' hold hres'
  | move => exact hC.stored r' res' flags' stored' hr' hres'
  | dropNull => exact hC.stored r' res' flags' stored' hr' hres'
  | drop => exact hC.stored r' res' flags' stored' hr' hres'
  | use => exact hC.stored r' res' flags' stored' hr' hres'
  | provide => exact hC.stored r' res' flags' stored' hr' hres'

lemma clean_step (hC : Clean c s) (h : step s a = some s') : Clean c s' := by
  have heff := step_effect h
  refine ⟨inv_effect hC.toInv heff, fun b => ?_, idle_effect hC heff,
    fun r res flags stored hr hres => stored_effect hC heff hr hres⟩
  have hplaces := places_effect hC.toInv heff b
  have hle := hC.places_le b
  omega

lemma clean_provided {mem : ℕ → UInt8} (h : provided mem c = some s) : Clean c s := by
  have hI := inv_provided h
  obtain ⟨hfits, hs⟩ := Option.ite_none_right_eq_some.mp h
  cases hs
  refine ⟨hI, fun b => ?_, fun i b hb _ => ?_, fun r res flags stored hr => by cases hr⟩
  · have hcount := provides_provideBuffers c b
    have hone : (List.range c.m).count b ≤ 1 := List.nodup_iff_count_le_one.mp List.nodup_range b
    simp only [State.places, hcount]
    exact hone
  · have hblocks := blocks_provideGroupContiguous {} c.base c.gid hfits
    rw [List.nil_append] at hblocks
    rw [hblocks] at hb
    exact eq_block_of_newBlocks hb

lemma step_resume {r : ℕ} {res : ℤ} {flags : ℕ} {stored : List UInt8} {b : SelectedBuffer}
    (hr : s.reads[r]? = some (.completed res flags stored)) (hres : 0 < res)
    (hb : s.group.blocks[flagOf flags]? = some b) :
    step s (.resume r) = some { s with
      group := s.group.setBlock (flagOf flags) (b.hasWritten s.memory res.toNat)
      reads := s.reads.set r .returned
      resources := s.resources ++ [some (flagOf flags)] } := by
  simp only [step, hr, afterRead, if_neg (Int.not_le.mpr hres), hb]

/-- The block of an unhandled completion shows, once the read returns, what was stored. -/
lemma readableView_hasWritten (hC : Clean c s) {r : ℕ} {res : ℤ} {flags : ℕ}
    {stored : List UInt8} (hr : s.reads[r]? = some (.completed res flags stored))
    (hres : 0 < res) {b : SelectedBuffer} (hb : s.group.blocks[flagOf flags]? = some b) :
    (b.hasWritten s.memory res.toNat).readableView s.memory = stored := by
  have hidle := hC.idle _ b hb (hC.no_owner hr (hC.buffer_of_pos hr hres))
  have hload := hC.stored r res flags stored hr hres
  rcases hC.regular hr with ⟨-, hle⟩ | ⟨i, -, rfl, hlen, hlength⟩
  · exact absurd hres (Int.not_lt.mpr hle)
  · have htoNat : res.toNat = stored.length := by
      have := hlength hres
      omega
    subst hidle
    rw [htoNat]
    change slice (load s.memory (c.base + flagOf (cqeFlags i) * c.n) c.n) 0
      (0 + stored.length - 0) = stored
    rw [slice, List.drop_zero, Nat.sub_zero, Nat.zero_add, load_take _ _ hlen, hload]

end

/-- **A selected buffer is exclusive and shows what was read.**  However the coroutines and the
kernel interleave, no two resources own one block; and a read resumed with a result above zero
returns a resource for a block whose readable bytes are those the kernel stored for it. -/
theorem selected_exclusive_and_fresh {mem : ℕ → UInt8} {c : Call} {s₀ s : State}
    (h : provided mem c = some s₀) (hs : selecting.Reachable s₀ s) :
    (∀ i, owners s.resources i ≤ 1) ∧
      ∀ (r : ℕ) (res : ℤ) (flags : ℕ) (stored : List UInt8),
        s.reads[r]? = some (.completed res flags stored) → 0 < res →
          ∃ s' b, step s (.resume r) = some s' ∧
            s'.resources = s.resources ++ [some (flagOf flags)] ∧
            s'.group.blocks[flagOf flags]? = some b ∧
            b.readableView s'.memory = stored ∧ (stored.length : ℤ) = res ∧
            load s'.memory b.data stored.length = stored := by
  have hC : Clean c s := Machine.Reachable.invariant selecting hs (clean_provided h)
    fun s a s' hC hstep => clean_step hC hstep
  constructor
  · intro i
    have hle := hC.places_le i
    simp only [State.places] at hle
    omega
  · intro r res flags stored hr hres
    have hreg := hC.regular hr
    rcases hreg with ⟨-, hle⟩ | ⟨i, hi, hflags, hlen, hlength⟩
    · exact absurd hres (Int.not_lt.mpr hle)
    · have hn : 0 < c.n := by
        have := hlength hres
        omega
      have hlt : flagOf flags < s.group.blocks.length := by
        rw [hC.length_eq hn, hflags, flagOf_cqeFlags]
        exact hi
      obtain ⟨b, hb⟩ : ∃ b, s.group.blocks[flagOf flags]? = some b :=
        ⟨_, List.getElem?_eq_getElem hlt⟩
      refine ⟨_, _, step_resume hr hres hb, rfl, List.getElem?_set_self hlt,
        readableView_hasWritten hC hr hres hb, (hlength hres).symm, ?_⟩
      have hdata : b.data = c.base + flagOf flags * c.n :=
        congrArg SelectedBuffer.data (hC.blocks _ b hb)
      change load s.memory b.data stored.length = stored
      rw [hdata]
      exact hC.stored r res flags stored hr hres

/-- Two bytes are read into the first block and one of them is consumed; the block goes back
and is selected again, for a read of one byte. -/
theorem selected_exclusive_and_fresh_second_use :
    ∃ s₀ s s' b, provided (fun _ => 0) ⟨0, 4, 2, 7⟩ = some s₀ ∧ selecting.Reachable s₀ s ∧
      step s (.resume 1) = some s' ∧ s'.resources = s.resources ++ [some 0] ∧
      s'.group.blocks[0]? = some b ∧ b.readableView s'.memory = [9] := by
  let as : List Action := [.startRead, .select 0 0, .complete 0 2 [1, 2], .resume 0, .hasRead 0 1,
    .drop 0, .provide 0, .startRead, .select 1 1, .complete 1 1 [9]]
  obtain ⟨s₀, hs₀⟩ : ∃ s₀, provided (fun _ => 0) ⟨0, 4, 2, 7⟩ = some s₀ := ⟨_, rfl⟩
  have hrun : ((provided (fun _ => 0) ⟨0, 4, 2, 7⟩).bind fun s => selecting.run s as).map
      (fun s => s.reads[1]?) = some (some (.completed 1 (cqeFlags 0) [9])) := by decide
  obtain ⟨s, hs, hread⟩ := Option.map_eq_some_iff.mp hrun
  rw [hs₀, Option.bind_some] at hs
  have hreach : selecting.Reachable s₀ s := ⟨as, hs⟩
  obtain ⟨s', b, hstep, hres, hb, hview, -⟩ :=
    (selected_exclusive_and_fresh hs₀ hreach).2 1 1 (cqeFlags 0) [9] hread (by decide)
  exact ⟨s₀, s, s', b, hs₀, hreach, hstep, hres, hb, hview⟩

end Coring.BufferPool
