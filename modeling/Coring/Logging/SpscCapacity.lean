import Coring.Logging.SpscCalls

/-!
# Which capacities make a queue

The constructor of `include/coring/detail/logging/spsc_ring.hpp` says that the capacity must be a
power of two, and asserts that it is even.  A call history takes `try_emplace`, and `front` with
`pop`, in any order; `queue_iff` says for which of the capacities that pass the assertion the values
come out as they went in.

A power of two is a ring of `bounded_queue`, whose runs a history's calls are.  Any other capacity
has a mask that leaves out one of the bits below its top, and the index with this bit alone has
slot `0`: after enough values two of them share it.  This holds of a capacity that the constructor
cuts down as well, since what remains is odd.

The memory is taken to have a cell for every slot: that its size, a product of words, does not wrap
is assumed with it.
-/

namespace Coring.Logging

/-- A ring, the values `try_emplace` has accepted and those `pop` has taken out. -/
structure History (α : Type) where
  ring : SpscRing α
  accepted : List α
  popped : List (Option α)

inductive HistoryCall (α : Type)
  | tryEmplace (v : α)
  /-- `front`, and `pop` unless it is null. -/
  | take

namespace History

variable {α : Type}

def step (s : History α) : HistoryCall α → Option (History α)
  | .tryEmplace v => some { s with
      ring := (s.ring.tryEmplace v).1
      accepted := if (s.ring.tryEmplace v).2 then s.accepted ++ [v] else s.accepted }
  | .take => match s.ring.front with
      | none => some s
      | some p => some { s with
          ring := s.ring.pop
          popped := s.popped ++ [s.ring.data p] }

def machine : Machine (History α) (HistoryCall α) := ⟨step⟩

def start (size : ℕ) (capacity : BitVec 64) : History α := ⟨SpscRing.new size capacity, [], []⟩

/-- The values come out as they went in, and no two that are stored share a slot. -/
def Ok (s : History α) : Prop := s.popped <+: s.accepted.map some ∧ s.ring.occupied.Nodup

/-! ## Powers of two -/

/-- The history is that of a run of the two parties, both of them between two calls. -/
structure OfRun (size k : ℕ) (s : History α) (t : Spsc.State α) : Prop where
  reachable : Spsc.machine.Reachable (Spsc.start size k) t
  producer : t.producer = .idle
  consumer : t.consumer = .idle
  ring : t.ring = s.ring
  accepted : t.enqueued = s.accepted
  popped : t.received = s.popped

lemma step_ofRun {size k : ℕ} {s s' : History α} {c : HistoryCall α}
    (h : ∃ t, s.OfRun size k t) (hs : s.step c = some s') : ∃ t, s'.OfRun size k t := by
  obtain ⟨t, h⟩ := h
  obtain ⟨ring, accepted, popped⟩ := s
  obtain ⟨hreach, hproducer, hconsumer, rfl, rfl, rfl⟩ := h
  cases c with
  | tryEmplace v =>
    rw [step, Option.some_inj] at hs
    subst hs
    cases hb : (t.ring.tryEmplace v).2 with
    | true =>
      have hrun := Spsc.run_tryEmplace_true hproducer hb
      exact ⟨_, hreach.run _ hrun, hproducer, hconsumer, rfl, rfl, rfl⟩
    | false =>
      have hsame : (t.ring.tryEmplace v).1 = t.ring := by
        rw [SpscRing.tryEmplace] at hb ⊢
        split at hb
        · next hzero => rw [if_pos hzero]
        · cases hb
      exact ⟨t, hreach, hproducer, hconsumer, hsame.symm, rfl, rfl⟩
  | take =>
    cases hfront : t.ring.front with
    | none =>
      simp only [step, hfront, Option.some_inj] at hs
      subst hs
      exact ⟨t, hreach, hproducer, hconsumer, rfl, rfl, rfl⟩
    | some p =>
      simp only [step, hfront, Option.some_inj] at hs
      subst hs
      have hrun := Spsc.run_take hconsumer hfront
      exact ⟨_, hreach.run _ hrun, hproducer, hconsumer, rfl, rfl, rfl⟩

lemma ok_of_pow {size k : ℕ} (h₁ : 1 ≤ k) (h₂ : k < 64) {calls : List (HistoryCall α)}
    {s : History α} (h : machine.run (start size (BitVec.ofNat 64 (2 ^ k))) calls = some s) :
    s.Ok := by
  obtain ⟨t, ht⟩ := machine.run_invariant (P := fun s => ∃ t, s.OfRun size k t)
    (fun _ _ _ => step_ofRun) ⟨Spsc.start size k, ⟨[], rfl⟩, rfl, rfl, rfl, rfl, rfl⟩ h
  obtain ⟨m, l, hl⟩ := Spsc.exists_stores h₁ h₂ ht.reachable
  have hqueue := (Spsc.bounded_queue size k h₁ h₂ t ht.reachable).1
  rw [ht.popped, ht.accepted] at hqueue
  rw [ht.ring] at hl
  exact ⟨hqueue, hl.nodup_occupied⟩

/-! ## Other capacities -/

lemma step_of_free {s : History α} (h : ¬s.ring.freeEntries s.ring.indexRead s.ring.indexWrite = 0)
    (v : α) : s.step (.tryEmplace v) = some { s with
      ring := { s.ring with
        data := Function.update s.ring.data (s.ring.slot s.ring.indexWrite) (some v)
        indexWrite := s.ring.indexWrite + 1 }
      accepted := s.accepted ++ [v] } := by
  have hcall : s.ring.tryEmplace v = _ := if_neg h
  rw [step, hcall]
  rfl

/-- As long as the mask is not reached every value is accepted. -/
lemma run_fill (v : α) (n : ℕ) {s : History α} {i : ℕ} (hread : s.ring.indexRead = 0)
    (hwrite : s.ring.indexWrite = counter 64 i) (hle : i + n ≤ s.ring.mask.toNat) :
    ∃ s', machine.run s (List.replicate n (.tryEmplace v)) = some s' ∧
      s'.ring.indexRead = 0 ∧ s'.ring.indexWrite = counter 64 (i + n) ∧
      s'.ring.capacity = s.ring.capacity := by
  induction n generalizing s i with
  | zero => exact ⟨s, rfl, hread, hwrite, rfl⟩
  | succ n ih =>
    have hlt := s.ring.mask.isLt
    have hfree : ¬s.ring.freeEntries s.ring.indexRead s.ring.indexWrite = 0 := by
      have hsub := counter_sub (w := 64) (m := i) (n := s.ring.mask.toNat) (by omega) (by omega)
      have hfree : s.ring.freeEntries s.ring.indexRead s.ring.indexWrite
          = counter 64 s.ring.mask.toNat - counter 64 i := by
        rw [SpscRing.freeEntries, hread, hwrite, counter_toNat]
        exact congrArg (· - counter 64 i) (BitVec.add_zero _)
      intro hzero
      rw [← hfree, hzero] at hsub
      change 0 = s.ring.mask.toNat - i at hsub
      omega
    have hstep := step_of_free hfree v
    obtain ⟨s', hrun, hread', hwrite', hcap⟩ := ih (i := i + 1) (s := { s with
        ring := { s.ring with
          data := Function.update s.ring.data (s.ring.slot s.ring.indexWrite) (some v)
          indexWrite := s.ring.indexWrite + 1 }
        accepted := s.accepted ++ [v] })
      hread (by rw [counter_succ, ← hwrite]) (by rw [Nat.add_assoc, Nat.add_comm 1]; exact hle)
    refine ⟨s', ?_, hread', ?_, hcap⟩
    · rw [List.replicate_succ, Machine.run_cons_eq_some]
      exact ⟨_, hstep, hrun⟩
    · rw [hwrite', Nat.add_assoc, Nat.add_comm 1]

/-- Two stored values share slot `0` once an index with a single bit that the mask leaves out is
between the indices. -/
lemma not_nodup_of_masked_out {r : SpscRing α} {b : ℕ} (hread : r.indexRead = 0)
    (hwrite : r.indexWrite = counter 64 (2 ^ b + 1)) (hlt : 2 ^ b < r.mask.toNat)
    (hmasked : 2 ^ b &&& r.mask.toNat = 0) : ¬r.occupied.Nodup := by
  intro hnodup
  have hmask := r.mask.isLt
  have hentries : (r.indexWrite - r.indexRead).toNat = 2 ^ b + 1 := by
    rw [hwrite, hread, show (0 : BitVec 64) = counter 64 0 from rfl, counter_sub (Nat.zero_le _)
      (by omega), Nat.sub_zero]
  have hslot : ∀ i, i ≤ 2 ^ b → r.slot (r.indexRead + counter 64 i) = i &&& r.mask.toNat := by
    intro i hi
    rw [hread, show (0 : BitVec 64) = counter 64 0 from rfl, ← counter_add, Nat.zero_add,
      SpscRing.slot, BitVec.toNat_and, counter, BitVec.toNat_ofNat, Nat.mod_eq_of_lt (by omega)]
  rw [SpscRing.occupied, hentries] at hnodup
  have hinj := List.inj_on_of_nodup_map hnodup (List.mem_range.mpr (Nat.succ_pos _))
    (List.mem_range.mpr (Nat.lt_succ_self (2 ^ b)))
  rw [hslot 0 (Nat.zero_le _), hslot _ (Nat.le_refl _), hmasked, Nat.zero_and] at hinj
  exact absurd (hinj rfl) (Nat.two_pow_pos b).ne

/-- The capacity the constructor leaves is a power of two only if its argument is. -/
lemma capacity_new_ne (size : ℕ) {c : BitVec 64} (h₀ : c ≠ 0) (hpow : ∀ k, c.toNat ≠ 2 ^ k) :
    (SpscRing.new size c : SpscRing α).capacity ≠ 0 ∧
      ∀ k, (SpscRing.new size c : SpscRing α).capacity.toNat ≠ 2 ^ k := by
  simp only [SpscRing.new]
  split
  · -- What remains of a capacity that is cut down is odd, and not `1`.
    have hclamp := SpscRing.toNat_clamp size
    have hpad := SpscRing.kPadding_toNat_le size
    refine ⟨fun hzero => ?_, fun k hk => ?_⟩
    · rw [hzero] at hclamp
      change 0 = _ at hclamp
      omega
    · rw [hclamp] at hk
      cases k with
      | zero => omega
      | succ k =>
        rw [Nat.pow_succ] at hk
        omega
  · exact ⟨h₀, hpow⟩

/-- A history that stores two values in one slot. -/
lemma exists_not_nodup (v : α) (size : ℕ) {c : BitVec 64} (h₀ : c ≠ 0)
    (hpow : ∀ k, c.toNat ≠ 2 ^ k) :
    ∃ calls s, machine.run (start size c : History α) calls = some s ∧ ¬s.ring.occupied.Nodup := by
  obtain ⟨hne, hcap⟩ := capacity_new_ne (α := α) size h₀ hpow
  have hpos : (SpscRing.new size c : SpscRing α).capacity.toNat ≠ 0 := fun hzero =>
    hne (BitVec.eq_of_toNat_eq hzero)
  obtain ⟨b, hlt, hmasked⟩ := exists_masked_out hpos hcap
  have hone : (1 : BitVec 64) ≤ (SpscRing.new size c : SpscRing α).capacity := by
    rw [BitVec.le_def]
    exact Nat.one_le_iff_ne_zero.mpr hpos
  have hmask : (SpscRing.new size c : SpscRing α).mask.toNat
      = (SpscRing.new size c : SpscRing α).capacity.toNat - 1 := BitVec.toNat_sub_of_le hone
  obtain ⟨s, hrun, hread, hwrite, hcapacity⟩ := run_fill v (2 ^ b + 1)
    (s := (start size c : History α)) (i := 0) rfl rfl
    (by rw [Nat.zero_add]; exact hmask ▸ hlt)
  have hmask' : s.ring.mask = (SpscRing.new size c : SpscRing α).mask :=
    congrArg (· - 1) hcapacity
  rw [Nat.zero_add] at hwrite
  refine ⟨_, s, hrun, not_nodup_of_masked_out hread hwrite ?_ ?_⟩
  · rw [hmask', hmask]
    exact hlt
  · rw [hmask', hmask]
    exact hmasked

/-! ## All capacities -/

/-- **A capacity that passes the assertion makes a queue if and only if it is a power of two**, in
every history of any length. -/
theorem queue_iff [Inhabited α] (size : ℕ) (c : BitVec 64) (h₀ : 0 < c) (hassert : c &&& 1 ≠ 1) :
    (∀ calls, ∀ s : History α, machine.run (start size c) calls = some s → s.Ok) ↔
      ∃ k, c.toNat = 2 ^ k := by
  constructor
  · intro hok
    by_contra hpow
    obtain ⟨calls, s, hrun, hnot⟩ := exists_not_nodup (default : α) size
      (fun hzero => BitVec.lt_irrefl 0 (hzero ▸ h₀)) (not_exists.mp hpow)
    exact hnot (hok calls s hrun).2
  · rintro ⟨k, hk⟩ calls s hrun
    have hc : c = BitVec.ofNat 64 (2 ^ k) := by rw [← hk, BitVec.ofNat_toNat, BitVec.setWidth_eq]
    have hlt : k < 64 := (Nat.pow_lt_pow_iff_right (by decide)).mp (hk ▸ c.isLt)
    have hpos : 1 ≤ k := by
      by_contra hzero
      obtain rfl : k = 0 := by omega
      rw [hc] at hassert
      exact hassert (by decide)
    rw [hc] at hrun
    exact ok_of_pow hpos hlt hrun

/-- With four slots every history is that of a queue, since four is a power of two. -/
theorem queue_iff_four : (4 : BitVec 64).toNat = 2 ^ 2 ∧
    ∀ calls, ∀ s : History ℕ, machine.run (start 8 4) calls = some s → s.Ok :=
  ⟨by decide, (queue_iff 8 4 (by decide) (by decide)).mpr ⟨2, by decide⟩⟩

/-- With six slots the mask is `5`, which leaves out the bit of `2`: the third value overwrites the
first, and comes out in its place. -/
theorem six_slots_overwrite :
    ∃ calls, ∃ s : History ℕ, (0 : BitVec 64) < 6 ∧ (6 : BitVec 64) &&& 1 ≠ 1 ∧
      machine.run (start 8 6) calls = some s ∧ s.accepted = [7, 8, 9] ∧ s.popped = [some 9] ∧
      ¬s.Ok := by
  have hrun : ((machine.run (start 8 6)
      [.tryEmplace 7, .tryEmplace 8, .tryEmplace 9, .take]).map
        fun s : History ℕ => (s.accepted, s.popped)) = some ([7, 8, 9], [some 9]) := by
    decide +kernel
  obtain ⟨s, hs, hlists⟩ := Option.map_eq_some_iff.mp hrun
  obtain ⟨haccepted, hpopped⟩ := Prod.mk.inj hlists
  refine ⟨_, s, by decide, by decide, hs, haccepted, hpopped, fun hok => ?_⟩
  have hprefix := hok.1
  rw [haccepted, hpopped] at hprefix
  exact absurd hprefix (by decide)

end History

end Coring.Logging
