import Mathlib.Logic.Function.Basic
import Coring.Framework.Machine
import Coring.BufferPool.Basic

/-!
# The block table and the kernel

What the kernel knows of a provided buffer is the address and the length registered last under
its group and id.  What the pool knows is the group's table of blocks, which `read` indexes with
the id the kernel reports.  Every call of `provide_group_contiguous` registers ids from zero on,
while the table only grows: the blocks of a second call for a group stand behind those of the
first, under indices that no completion reports for them.

`Agree` is the property that ties the two together, and `InStep` is the exact condition on a
call for it to survive the call: the group has no block yet, or the call registers again, block
by block, what the table shows already.
-/

namespace Coring.BufferPool

/-- The pool's map of groups, and the kernel's view of the groups. -/
structure Tables where
  map : UInt16 → Option Group := fun _ => none
  registered : UInt16 → ℕ → Option (ℕ × ℕ) := fun _ _ => none

namespace Tables

variable (t : Tables)

/-- `get_or_create_group_by_id`. -/
def getOrCreateGroupById (gid : UInt16) : Group := (t.map gid).getD {}

/-- The kernel adds one provided buffer. -/
def register (reg : UInt16 → ℕ → Option (ℕ × ℕ)) (p : Provided) : UInt16 → ℕ → Option (ℕ × ℕ) :=
  fun gid bid => if gid = p.gid ∧ bid = p.bid then some (p.addr, p.len) else reg gid bid

/-- A successful call. -/
def provide (c : Call) : Tables :=
  { map := Function.update t.map c.gid
      (some (provideGroupContiguous (t.getOrCreateGroupById c.gid) c.base c.n c.m c.gid))
    registered := (provideBuffers c.base c.n c.m c.gid 0).foldl register t.registered }

/-- `read` with the completion `res`, `flags` of its request. -/
def read (mem : ℕ → UInt8) (gid : UInt16) (res : ℤ) (flags : ℕ) : ReadOutcome :=
  match t.map gid with
  | some g => afterRead mem g res flags
  | none => .wrongGroup

/-- The blocks of a group, none if the group does not exist. -/
def blocks (gid : UInt16) : List SelectedBuffer := (t.getOrCreateGroupById gid).blocks

/-- The block at index `b` is this piece of memory. -/
def Shows (gid : UInt16) (b addr len : ℕ) : Prop :=
  (t.blocks gid)[b]?.map (fun blk => (blk.data, blk.size)) = some (addr, len)

instance (gid : UInt16) (b addr len : ℕ) : Decidable (t.Shows gid b addr len) :=
  inferInstanceAs (Decidable (_ = _))

/-- For every id the kernel may report with a completion that stored something, `read` yields a
buffer whose `data()` and `size()` are what the kernel has under this id. -/
def Agree : Prop :=
  ∀ gid b addr len, t.registered gid b = some (addr, len) →
    ∀ (mem : ℕ → UInt8) (res : ℤ), 0 < res → res ≤ len →
      ∃ g i blk, t.read mem gid res (cqeFlags b) = .returned g i ∧ g.blocks[i]? = some blk ∧
        blk.data = addr ∧ blk.size = len

/-- The call keeps the table in step with the kernel. -/
def InStep (c : Call) : Prop :=
  c.n = 0 ∨ t.blocks c.gid = [] ∨
    c.m ≤ (t.blocks c.gid).length ∧ ∀ b < c.m, t.Shows c.gid b (c.base + b * c.n) c.n

instance (c : Call) : Decidable (t.InStep c) := inferInstanceAs (Decidable (_ ∨ _ ∨ _))

end Tables

/-- The sequences of successful calls. -/
def providing : Machine Tables Call :=
  ⟨fun t c => if fits c.n c.m then some (t.provide c) else none⟩

section

variable {t : Tables} {c : Call} {gid : UInt16} {b addr len : ℕ}

/-! ## One call -/

lemma foldl_register (reg : UInt16 → ℕ → Option (ℕ × ℕ)) (addr len m : ℕ) (gid g : UInt16) (b : ℕ) :
    (provideBuffers addr len m gid 0).foldl Tables.register reg g b =
      if g = gid ∧ b < m then some (addr + b * len, len) else reg g b := by
  induction m with
  | zero => simp [provideBuffers]
  | succ m ih =>
    have hsucc : provideBuffers addr len (m + 1) gid 0 =
        provideBuffers addr len m gid 0 ++ [⟨gid, 0 + m, addr + m * len, len⟩] := by
      simp only [provideBuffers, List.range_succ, List.map_append, List.map_cons, List.map_nil]
    rw [hsucc, List.foldl_append, List.foldl_cons, List.foldl_nil, Tables.register, ih]
    by_cases hb : b = m
    · subst hb
      by_cases hg : g = gid <;> simp [hg]
    · have hlt : b < m + 1 ↔ b < m := by omega
      simp [hb, hlt]

lemma registered_provide (t : Tables) (c : Call) (gid : UInt16) (b : ℕ) :
    (t.provide c).registered gid b =
      if gid = c.gid ∧ b < c.m then some (c.base + b * c.n, c.n) else t.registered gid b :=
  foldl_register t.registered c.base c.n c.m c.gid gid b

lemma blocks_provide_ne (h : gid ≠ c.gid) : (t.provide c).blocks gid = t.blocks gid := by
  simp only [Tables.blocks, Tables.getOrCreateGroupById, Tables.provide, Function.update_of_ne h]

lemma blocks_provide_self (h : fits c.n c.m) :
    (t.provide c).blocks c.gid = t.blocks c.gid ++ newBlocks c.base c.n c.m c.gid := by
  rw [Tables.blocks, Tables.getOrCreateGroupById, Tables.provide]
  simp only [Function.update_self, Option.getD_some]
  exact blocks_provideGroupContiguous _ _ _ h

/-- A block of the table is not touched by a later call. -/
lemma shows_provide (hfits : fits c.n c.m) (h : t.Shows gid b addr len) :
    (t.provide c).Shows gid b addr len := by
  unfold Tables.Shows at h ⊢
  by_cases hg : gid = c.gid
  · subst hg
    obtain ⟨blk, hblk, hshape⟩ := Option.map_eq_some_iff.mp h
    have hlt := (List.getElem?_eq_some_iff.mp hblk).1
    rw [blocks_provide_self hfits, List.getElem?_append_left hlt, hblk, Option.map_some, hshape]
  · rw [blocks_provide_ne hg, h]

/-! ## Agreement -/

/-- What `read` yields comes from the table. -/
lemma read_iff_shows {res : ℤ} (hres : 0 < res) (mem : ℕ → UInt8) :
    (∃ g i blk, t.read mem gid res (cqeFlags b) = .returned g i ∧ g.blocks[i]? = some blk ∧
      blk.data = addr ∧ blk.size = len) ↔ t.Shows gid b addr len := by
  unfold Tables.read Tables.Shows Tables.blocks Tables.getOrCreateGroupById
  cases hgroup : t.map gid with
  | none => simp
  | some g =>
    simp only [Option.getD_some, afterRead, flagOf_cqeFlags, if_neg (Int.not_le.mpr hres)]
    cases hblk : g.blocks[b]? with
    | none => simp
    | some blk =>
      have hlt := (List.getElem?_eq_some_iff.mp hblk).1
      simp only [ReadOutcome.returned.injEq, Option.map_some, Option.some_inj, Prod.mk.injEq]
      constructor
      · rintro ⟨g', i, blk', ⟨hg, hi⟩, hget, hdata, hsize⟩
        have hset : (g.setBlock b (blk.hasWritten mem res.toNat)).blocks[b]? =
            some (blk.hasWritten mem res.toNat) := List.getElem?_set_self hlt
        rw [← hg, ← hi, hset, Option.some_inj] at hget
        subst hget
        exact ⟨hdata, hsize⟩
      · rintro ⟨hdata, hsize⟩
        exact ⟨_, _, _, ⟨rfl, rfl⟩, List.getElem?_set_self hlt, hdata, hsize⟩

lemma agree_iff : t.Agree ↔
    ∀ gid b addr len, t.registered gid b = some (addr, len) → 0 < len →
      t.Shows gid b addr len := by
  constructor
  · intro h gid b addr len hreg hlen
    exact (read_iff_shows Int.one_pos fun _ => 0).mp
      (h gid b addr len hreg (fun _ => 0) 1 Int.one_pos (by omega))
  · intro h gid b addr len hreg mem res hres hle
    exact (read_iff_shows hres mem).mpr (h gid b addr len hreg (by omega))

/-- After a call the table agrees if and only if it shows what the call registered. -/
lemma agree_provide_iff (hfits : fits c.n c.m) (h : t.Agree) :
    (t.provide c).Agree ↔
      c.n = 0 ∨ ∀ b < c.m, (t.provide c).Shows c.gid b (c.base + b * c.n) c.n := by
  rw [agree_iff] at h ⊢
  constructor
  · intro h'
    rcases Nat.eq_zero_or_pos c.n with hn | hn
    · exact .inl hn
    · refine .inr fun b hb => h' c.gid b _ _ ?_ hn
      rw [registered_provide, if_pos ⟨rfl, hb⟩]
  · intro h' gid b addr len hreg hlen
    rw [registered_provide] at hreg
    split at hreg
    · rename_i hgb
      obtain ⟨rfl, hb⟩ := hgb
      cases hreg
      exact h'.resolve_left (by omega) b hb
    · exact shows_provide hfits (h gid b addr len hreg hlen)

/-- The table shows what the call registered exactly when the call was in step. -/
lemma shows_registered_iff (hfits : fits c.n c.m) :
    (c.n = 0 ∨ ∀ b < c.m, (t.provide c).Shows c.gid b (c.base + b * c.n) c.n) ↔ t.InStep c := by
  unfold Tables.InStep
  rcases Nat.eq_zero_or_pos c.n with hn | hn
  · simp [hn]
  · have hn' : c.n ≠ 0 := by omega
    simp only [hn', false_or]
    constructor
    · intro h
      by_cases hnil : t.blocks c.gid = []
      · exact .inl hnil
      · have hlen : 0 < (t.blocks c.gid).length := List.length_pos_iff.mpr hnil
        have hle : c.m ≤ (t.blocks c.gid).length := by
          -- else the first new block stands where a later id is looked up
          by_contra hlt
          have hshows := h _ (Nat.not_le.mp hlt)
          have hfirst : (newBlocks c.base c.n c.m c.gid)[0]? = some (block c.base c.n c.gid 0) :=
            newBlocks_getElem? hn hfits.2.1
          rw [Tables.Shows, blocks_provide_self hfits, List.getElem?_append_right (Nat.le_refl _),
            Nat.sub_self, hfirst, Option.map_some, Option.some_inj, Prod.mk.injEq] at hshows
          have hmul : 0 < (t.blocks c.gid).length * c.n := Nat.mul_pos hlen hn
          have hdata := hshows.1
          simp only [block, Nat.zero_mul] at hdata
          omega
        refine .inr ⟨hle, fun b hb => ?_⟩
        have hshows := h b hb
        rwa [Tables.Shows, blocks_provide_self hfits,
          List.getElem?_append_left (by omega)] at hshows
    · rintro (hnil | ⟨hle, h⟩) b hb
      · rw [Tables.Shows, blocks_provide_self hfits, hnil, List.nil_append,
          newBlocks_getElem? hn hb]
        rfl
      · exact shows_provide hfits (h b hb)

end

/-- **When the table agrees with the kernel**: along a sequence of successful calls it does
exactly as long as every call is for empty blocks, or for a group without blocks, or registers
again the memory that the table shows under the same ids. -/
theorem agree_iff_inStep (calls : List Call) :
    providing.Always Tables.Agree {} calls ↔ providing.Each Tables.InStep {} calls := by
  have hstep : ∀ t c t', True → True → t.Agree → providing.step t c = some t' →
      (t'.Agree ↔ t.InStep c) := by
    intro t c t' _ _ h ht
    obtain ⟨hfits, ht'⟩ := Option.ite_none_right_eq_some.mp ht
    cases ht'
    rw [agree_provide_iff hfits h, shows_registered_iff hfits]
  have hempty : Tables.Agree {} := fun _ _ _ _ h => absurd h (Option.some_ne_none _).symm
  exact providing.always_iff_each (fun _ _ _ _ _ => trivial) hstep calls {} trivial hempty
    (providing.each_of_forall (fun _ _ => trivial) _ _)

/-- A group of two blocks of four bytes is provided again at another address.  The kernel has
the new address under id 0, and `read` hands out the block at the old one. -/
theorem agree_fails_on_group_provided_again :
    ¬ ∀ calls, providing.Always Tables.Agree {} calls := by
  intro h
  have hrun : providing.run {} [⟨0, 4, 2, 7⟩, ⟨1000, 4, 2, 7⟩] =
      some ((Tables.provide {} ⟨0, 4, 2, 7⟩).provide ⟨1000, 4, 2, 7⟩) := rfl
  have hagree := agree_iff.mp (providing.always_run (h _) hrun)
  have hshows := hagree 7 0 1000 4 (by decide) (by decide)
  exact absurd hshows (by decide)

end Coring.BufferPool
