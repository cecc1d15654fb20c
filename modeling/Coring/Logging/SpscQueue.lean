import Coring.Logging.SpscParties
import Mathlib.Data.List.TakeDrop

/-!
# The ring is a bounded queue

The invariant counts the indices in natural numbers, which do not wrap around.  The producer's
copy of the write index and the consumer's copy of the read index are exact, since nobody else
stores to them; of the other index a party only knows a bound, which can but improve.  A step of
one party therefore keeps what the other knows, and `bounded_queue` follows for every run.
-/

namespace Coring.Logging.Spsc

variable {α : Type}

/-! ## The invariant -/

/-- With `n` values enqueued and `r` released. -/
def Producer.Ok (k : ℕ) (data : ℕ → Option α) (n r : ℕ) : Producer α → Prop
  | .idle => True
  | .emplace _ w | .tryEmplace _ w => w = counter 64 n
  | .construct _ w => w = counter 64 n ∧ n < r + (2 ^ k - 1)
  | .publish v w => w = counter 64 n ∧ n < r + (2 ^ k - 1) ∧ data (n % 2 ^ k) = some v

/-- A vector with `base` old elements is filled with `e` values from `r` on, `j` of them so far. -/
structure Copied (k : ℕ) (enqueued : List α) (r : ℕ) (v : List (Option α)) (base : ℕ)
    (left : List (ℕ × ℕ)) (e j : ℕ) : Prop where
  pos : 0 < e
  published : r + e ≤ enqueued.length
  length : v.length = base + e
  done : j ≤ e
  left : left = ((List.range e).map fun i => (i, (r + i) % 2 ^ k)).drop j
  copied : (v.drop base).take j = ((enqueued.drop r).take j).map some

/-- With `r` values released. -/
def Consumer.Ok (k : ℕ) (enqueued : List α) (r : ℕ) : Consumer α → Prop
  | .idle => True
  | .front i | .batchOut _ i | .destroyed i => i = counter 64 r
  | .pointer p => r < enqueued.length ∧ p = r % 2 ^ k
  | .seen p x => r < enqueued.length ∧ p = r % 2 ^ k ∧ enqueued[r]? = x
  | .pop i => r < enqueued.length ∧ i = counter 64 r
  | .copying v base i entries left => i = counter 64 r ∧ ∃ e j, entries = counter 64 e ∧
      Copied k enqueued r v base left e j

/-- How many values have been taken out and not released. -/
def Consumer.ahead : Consumer α → ℕ
  | .destroyed _ => 1
  | _ => 0

structure Inv (k : ℕ) (s : State α) (r : ℕ) : Prop where
  pow : s.ring.IsPow k
  write : s.ring.indexWrite = counter 64 s.enqueued.length
  read : s.ring.indexRead = counter 64 r
  le : r + s.consumer.ahead ≤ s.enqueued.length
  room : s.enqueued.length ≤ r + (2 ^ k - 1)
  holds : Holds (2 ^ k) s.ring.data (r + s.consumer.ahead)
    ((s.enqueued.drop (r + s.consumer.ahead)).map some)
  received : s.received = (s.enqueued.take (r + s.consumer.ahead)).map some
  producer : s.producer.Ok k s.ring.data s.enqueued.length r
  consumer : s.consumer.Ok k s.enqueued r

variable {k r : ℕ} {s s' : State α}

lemma inv_start (size : ℕ) (h₁ : 1 ≤ k) (h₂ : k < 64) : Inv k (start size k : State α) 0 where
  pow := SpscRing.isPow_new size h₁ h₂
  write := rfl
  read := rfl
  le := Nat.le_refl _
  room := Nat.zero_le _
  holds := holds_nil _ _ _
  received := rfl
  producer := trivial
  consumer := trivial

/-- What the producer knows of the consumer stays true when more is released. -/
lemma Producer.Ok.mono {data : ℕ → Option α} {n r' : ℕ} {p : Producer α} (h : p.Ok k data n r)
    (hle : r ≤ r') : p.Ok k data n r' := by
  cases p with
  | construct v w => exact ⟨h.1, by have := h.2; omega⟩
  | publish v w => exact ⟨h.1, by have := h.2.1; omega, h.2.2⟩
  | _ => exact h

/-- What the consumer knows of the producer stays true when more is enqueued. -/
lemma Consumer.Ok.concat {enqueued : List α} {c : Consumer α} (h : c.Ok k enqueued r) (v : α) :
    c.Ok k (enqueued ++ [v]) r := by
  have hlt : ∀ {i}, i < enqueued.length → i < (enqueued ++ [v]).length := fun hi => by
    rw [List.length_append]
    exact Nat.lt_add_right _ hi
  cases c with
  | pointer p => exact ⟨hlt h.1, h.2⟩
  | seen p x =>
    refine ⟨hlt h.1, h.2.1, ?_⟩
    rw [List.getElem?_append_left h.1]
    exact h.2.2
  | pop i => exact ⟨hlt h.1, h.2⟩
  | copying w base i entries left =>
    obtain ⟨hi, e, j, he, hc⟩ := h
    refine ⟨hi, e, j, he, hc.pos, ?_, hc.length, hc.done, hc.left, ?_⟩
    · have := hc.published
      rw [List.length_append]
      omega
    · have h₁ := hc.published
      have h₂ := hc.done
      rw [hc.copied, List.drop_append_of_le_length (by omega),
        List.take_append_of_le_length (by rw [List.length_drop]; omega)]
  | _ => exact h

namespace Inv

/-- Between the two indices the slots hold the values enqueued. -/
lemma data_eq (h : Inv k s r) {i : ℕ} {v : α} (hi : r + s.consumer.ahead ≤ i)
    (hv : s.enqueued[i]? = some v) : s.ring.data (i % 2 ^ k) = some v := by
  have hget : ((s.enqueued.drop (r + s.consumer.ahead)).map some)[i - (r + s.consumer.ahead)]?
      = some (some v) := by
    rw [List.getElem?_map, List.getElem?_drop, Nat.add_sub_cancel' hi, hv]
    rfl
  have := h.holds _ _ hget
  rwa [Nat.add_sub_cancel' hi] at this

/-! ## Steps of the producer -/

/-- A step that only moves the producer on. -/
lemma withProducer (h : Inv k s r) {p : Producer α}
    (hp : p.Ok k s.ring.data s.enqueued.length r) : Inv k { s with producer := p } r :=
  ⟨h.pow, h.write, h.read, h.le, h.room, h.holds, h.received, hp, h.consumer⟩

/-- The test for a free entry, on the current read index. -/
lemma free_iff (h : Inv k s r) {w : BitVec 64} (hw : w = counter 64 s.enqueued.length) :
    s.ring.freeEntries s.ring.indexRead w = 0 ↔ s.enqueued.length = r + (2 ^ k - 1) := by
  rw [hw, h.read]
  exact h.pow.freeEntries_eq_zero_iff (Nat.le_trans (Nat.le_add_right ..) h.le) h.room

lemma construct (h : Inv k s r) {v : α} {w : BitVec 64} (hp : s.producer = .construct v w) :
    Inv k { s with
      ring := { s.ring with data := Function.update s.ring.data (s.ring.slot w) (some v) }
      producer := .publish v w } r := by
  have hok := h.producer
  rw [hp] at hok
  obtain ⟨hw, hroom⟩ := hok
  have hslot : s.ring.slot w = s.enqueued.length % 2 ^ k := by rw [hw, h.pow.slot_eq]
  have hle := h.le
  refine ⟨⟨h.pow.pos, h.pow.lt, h.pow.capacity⟩, h.write, h.read, h.le, h.room, ?_, h.received,
    ⟨hw, hroom, ?_⟩, h.consumer⟩
  · simp only [hslot]
    refine h.holds.frame ?_ ?_ _
    · rw [List.length_map, List.length_drop]
      omega
    · omega
  · simp only [hslot, Function.update_self]

lemma publish (h : Inv k s r) {v : α} {w : BitVec 64} (hp : s.producer = .publish v w) :
    Inv k { s with
      ring := { s.ring with indexWrite := w + 1 }
      producer := .idle
      enqueued := s.enqueued ++ [v] } r := by
  have hok := h.producer
  rw [hp] at hok
  obtain ⟨hw, hroom, hdata⟩ := hok
  have hle := h.le
  have hlen : (s.enqueued ++ [v]).length = s.enqueued.length + 1 := List.length_append
  refine ⟨⟨h.pow.pos, h.pow.lt, h.pow.capacity⟩, ?_, h.read, ?_, ?_, ?_, ?_, trivial,
    h.consumer.concat v⟩
  · simp only [hw, hlen, counter_succ]
  · simp only [hlen]
    omega
  · simp only [hlen]
    omega
  · simp only [List.drop_append_of_le_length hle, List.map_append, List.map_singleton]
    refine h.holds.snoc ?_
    rw [List.length_map, List.length_drop, Nat.add_sub_cancel' hle]
    exact hdata
  · simp only [List.take_append_of_le_length hle]
    exact h.received

lemma produce (h : Inv k s r) {a : ProducerAct α} (hs : Spsc.produce s a = some s') :
    Inv k s' r := by
  have hle := h.le
  have hroom := h.room
  have hok := h.producer
  cases a with
  | emplace v =>
    simp only [Spsc.produce] at hs
    split at hs
    · rw [← Option.some_inj.mp hs]
      exact h.withProducer h.write
    · cases hs
  | tryEmplace v =>
    simp only [Spsc.produce] at hs
    split at hs
    · rw [← Option.some_inj.mp hs]
      exact h.withProducer h.write
    · cases hs
  | loadRead =>
    simp only [Spsc.produce] at hs
    split at hs
    · next v w hp =>
      rw [hp] at hok
      split at hs
      · rw [← Option.some_inj.mp hs]
        exact h
      · next hfree =>
        rw [← Option.some_inj.mp hs]
        have hne := mt (h.free_iff hok).mpr hfree
        exact h.withProducer ⟨hok, by omega⟩
    · next v w hp =>
      rw [hp] at hok
      split at hs
      · rw [← Option.some_inj.mp hs]
        exact h.withProducer trivial
      · next hfree =>
        rw [← Option.some_inj.mp hs]
        have hne := mt (h.free_iff hok).mpr hfree
        exact h.withProducer ⟨hok, by omega⟩
    · cases hs
  | construct =>
    simp only [Spsc.produce] at hs
    split at hs
    · next v w hp =>
      rw [← Option.some_inj.mp hs]
      exact h.construct hp
    · cases hs
  | publish =>
    simp only [Spsc.produce] at hs
    split at hs
    · next v w hp =>
      rw [← Option.some_inj.mp hs]
      exact h.publish hp
    · cases hs

/-! ## Steps of the consumer -/

/-- A step that only moves the consumer on. -/
lemma withConsumer (h : Inv k s r) {c : Consumer α} (hahead : s.consumer.ahead = c.ahead)
    (hc : c.Ok k s.enqueued r) : Inv k { s with consumer := c } r where
  pow := h.pow
  write := h.write
  read := h.read
  le := by simpa only [← hahead] using h.le
  room := h.room
  holds := by simpa only [← hahead] using h.holds
  received := by simpa only [← hahead] using h.received
  producer := h.producer
  consumer := hc

lemma ahead_of_free {c : Consumer α} (hc : c.Free = true) : c.ahead = 0 := by
  cases c with
  | destroyed i => cases hc
  | _ => rfl

/-- The entries the consumer finds, on the current write index. -/
lemma entries_eq (h : Inv k s r) {i : BitVec 64} (hi : i = counter 64 r) :
    (s.ring.indexWrite - i).toNat = s.enqueued.length - r := by
  have hlt := h.pow.pow_lt
  have hroom := h.room
  rw [h.write, hi, counter_sub (Nat.le_trans (Nat.le_add_right ..) h.le) (by omega)]

lemma entries_pos (h : Inv k s r) {i : BitVec 64} (hi : i = counter 64 r)
    (hne : s.ring.indexWrite - i ≠ 0) : r < s.enqueued.length := by
  have heq := h.entries_eq hi
  by_contra hge
  refine hne (BitVec.eq_of_toNat_eq ?_)
  rw [heq, Nat.sub_eq_zero_of_le (Nat.le_of_not_lt hge)]
  rfl

lemma loadWrite (h : Inv k s r) (hs : consume s .loadWrite = some s') : Inv k s' r := by
  have hok := h.consumer
  have hroom := h.room
  simp only [consume] at hs
  split at hs
  · next i hc =>
    rw [hc] at hok
    have hahead : s.consumer.ahead = 0 := by rw [hc]; rfl
    split at hs
    · rw [← Option.some_inj.mp hs]
      exact h.withConsumer hahead trivial
    · next hne =>
      rw [← Option.some_inj.mp hs]
      refine h.withConsumer hahead ⟨h.entries_pos hok hne, ?_⟩
      rw [show i = counter 64 r from hok, h.pow.slot_eq]
  · next v i hc =>
    rw [hc] at hok
    have hahead : s.consumer.ahead = 0 := by rw [hc]; rfl
    split at hs
    · rw [← Option.some_inj.mp hs]
      exact h.withConsumer hahead trivial
    · next hne =>
      rw [← Option.some_inj.mp hs]
      have hlt := h.entries_pos hok hne
      have hentries := h.entries_eq hok
      refine h.withConsumer hahead ⟨hok, s.enqueued.length - r, 0, ?_, ?_⟩
      · rw [← hentries, counter_toNat]
      · refine ⟨by omega, by omega, ?_, Nat.zero_le _, ?_, rfl⟩
        · rw [List.length_append, List.length_replicate, hentries]
        · have hcopies := h.pow.copies_eq (m := r) (e := s.enqueued.length - r) (by omega)
            (by omega)
          rw [Nat.add_sub_cancel' (Nat.le_of_lt hlt), ← h.write, ← show i = counter 64 r from hok]
            at hcopies
          exact hcopies
  · cases hs

/-- `pop` takes out the value `front` has pointed to. -/
lemma destroy (h : Inv k s r) {i : BitVec 64} (hc : s.consumer = .pop i) :
    Inv k { s with
      ring := { s.ring with data := Function.update s.ring.data (s.ring.slot i) none }
      consumer := .destroyed i
      received := s.received ++ [s.ring.data (s.ring.slot i)] } r := by
  have hok := h.consumer
  rw [hc] at hok
  obtain ⟨hlt, hi⟩ := hok
  have hroom := h.room
  have htwo := h.pow.two_le
  have hahead : s.consumer.ahead = 0 := by rw [hc]; rfl
  have hslot : s.ring.slot i = r % 2 ^ k := by rw [hi, h.pow.slot_eq]
  have hget : s.enqueued[r]? = some s.enqueued[r] := List.getElem?_eq_getElem hlt
  have hdata : s.ring.data (s.ring.slot i) = some s.enqueued[r] := by
    rw [hslot, h.data_eq (by rw [hahead]; exact Nat.le_refl _) hget]
  have hholds := h.holds
  rw [hahead, Nat.add_zero] at hholds
  refine ⟨⟨h.pow.pos, h.pow.lt, h.pow.capacity⟩, h.write, h.read, hlt, h.room, ?_, ?_, ?_, hi⟩
  · have hlen : ((s.enqueued.drop r).map some).length = s.enqueued.length - r := by
      rw [List.length_map, List.length_drop]
    have hpop := hholds.pop (by omega) (by omega) none
    rw [← List.map_drop, List.drop_drop] at hpop
    simp only [hslot, Consumer.ahead]
    exact hpop
  · have hrec := h.received
    rw [hahead, Nat.add_zero] at hrec
    simp only [Consumer.ahead, hdata, hrec]
    rw [List.take_succ_eq_append_getElem hlt, List.map_append, List.map_singleton]
  · -- The producer's own slot is another one.
    have hp := h.producer
    cases hprod : s.producer with
    | publish v w =>
      rw [hprod] at hp
      refine ⟨hp.1, hp.2.1, ?_⟩
      have hn := hp.2.1
      simp only [hslot]
      rw [Function.update_of_ne (slot_ne hlt (by omega)).symm]
      exact hp.2.2
    | _ => rw [hprod] at hp; exact hp

lemma take_drop_set (v : List (Option α)) {base j : ℕ} (h : base + j < v.length)
    (x : Option α) :
    ((v.set (base + j) x).drop base).take (j + 1) = (v.drop base).take j ++ [x] := by
  have hlen : j < ((v.drop base).set j x).length := by
    rw [List.length_set, List.length_drop]
    omega
  rw [List.drop_set, if_neg (by omega), Nat.add_sub_cancel_left,
    List.take_succ_eq_append_getElem hlen, List.take_set_of_le (Nat.le_refl j),
    List.getElem_set_self]

lemma copy (h : Inv k s r) (hs : consume s .copy = some s') : Inv k s' r := by
  have hok := h.consumer
  simp only [consume] at hs
  split at hs
  · next v base i entries d p left hc =>
    rw [← Option.some_inj.mp hs]
    rw [hc] at hok
    obtain ⟨hi, e, j, he, hcop⟩ := hok
    have hahead : s.consumer.ahead = 0 := by rw [hc]; rfl
    have hpub := hcop.published
    have hlen : ((List.range e).map fun i => (i, (r + i) % 2 ^ k)).length = e := by simp
    have hlt : j < e := by
      by_contra hge
      have hnil := hcop.left
      rw [List.drop_eq_nil_of_le (by omega)] at hnil
      cases hnil
    have hhead := hcop.left
    rw [List.drop_eq_getElem_cons (by omega), List.getElem_map, List.getElem_range] at hhead
    obtain ⟨hdp, hleft⟩ := List.cons.inj hhead
    obtain ⟨hd, hp⟩ := Prod.mk.inj hdp
    have hget : s.enqueued[r + j]? = some s.enqueued[r + j] := List.getElem?_eq_getElem _
    have hdata : s.ring.data p = some s.enqueued[r + j] := by
      rw [hp, h.data_eq (by rw [hahead]; exact Nat.le_add_right ..) hget]
    refine h.withConsumer hahead ⟨hi, e, j + 1, he, hcop.pos, hpub, ?_, hlt, hleft, ?_⟩
    · rw [List.length_set, hcop.length]
    · rw [hd, take_drop_set v (by rw [hcop.length]; omega), hcop.copied, hdata,
        List.take_succ_eq_append_getElem (i := j) (l := s.enqueued.drop r)
          (by rw [List.length_drop]; omega), List.map_append, List.map_singleton,
        List.getElem_drop]
  · cases hs

/-- All values taken out are released. -/
lemma released (h : Inv k s r) {e : ℕ} (hahead : s.consumer.ahead ≤ e)
    (hle : r + e ≤ s.enqueued.length) {i : BitVec 64} (hi : i = counter 64 (r + e)) :
    Inv k { s with
      ring := { s.ring with indexRead := i }
      consumer := .idle
      received := (s.enqueued.take (r + e)).map some } (r + e) where
  pow := ⟨h.pow.pos, h.pow.lt, h.pow.capacity⟩
  write := h.write
  read := hi
  le := hle
  room := by have := h.room; simp only; omega
  holds := by
    have hdrop := h.holds.drop (e - s.consumer.ahead)
    rw [← List.map_drop, List.drop_drop,
      show r + s.consumer.ahead + (e - s.consumer.ahead) = r + e by omega] at hdrop
    exact hdrop
  received := rfl
  producer := h.producer.mono (Nat.le_add_right ..)
  consumer := trivial

lemma release (h : Inv k s r) (hs : consume s .release = some s') : ∃ r', Inv k s' r' := by
  have hok := h.consumer
  have hle := h.le
  have hrec := h.received
  simp only [consume] at hs
  split at hs
  · next i hc =>
    rw [← Option.some_inj.mp hs]
    rw [hc, Consumer.ahead] at hle hrec
    rw [hc] at hok
    rw [hrec]
    refine ⟨r + 1, h.released (by rw [hc]; exact Nat.le_refl _) hle ?_⟩
    rw [show i = counter 64 r from hok, counter_succ]
  · next v base i entries hc =>
    rw [← Option.some_inj.mp hs]
    rw [hc] at hok
    obtain ⟨hi, e, j, he, hcop⟩ := hok
    have hahead : s.consumer.ahead = 0 := by rw [hc]; rfl
    have hj : j = e := by
      have hnil := congrArg List.length hcop.left
      have hdone := hcop.done
      rw [List.length_drop, List.length_map, List.length_range, List.length_nil] at hnil
      omega
    -- The copies are complete, so the new elements are the values between the indices.
    have hall : v.drop base = ((s.enqueued.drop r).take e).map some := by
      have hcopied := hcop.copied
      rwa [hj, List.take_of_length_le (by rw [List.length_drop, hcop.length]; omega)] at hcopied
    rw [hahead, Nat.add_zero] at hrec
    rw [hrec, hall, ← List.map_append, ← List.take_add]
    refine ⟨r + e, h.released (by rw [hahead]; exact Nat.zero_le _) hcop.published ?_⟩
    rw [hi, he, ← counter_add]
  · cases hs

lemma consume (h : Inv k s r) {a : ConsumerAct α} (hs : Spsc.consume s a = some s') :
    ∃ r', Inv k s' r' := by
  have hok := h.consumer
  cases a with
  | front =>
    simp only [Spsc.consume] at hs
    split at hs
    · next hfree =>
      rw [← Option.some_inj.mp hs]
      exact ⟨r, h.withConsumer (ahead_of_free hfree) h.read⟩
    · cases hs
  | batchOut v =>
    simp only [Spsc.consume] at hs
    split at hs
    · next hfree =>
      rw [← Option.some_inj.mp hs]
      exact ⟨r, h.withConsumer (ahead_of_free hfree) h.read⟩
    · cases hs
  | loadWrite => exact ⟨r, h.loadWrite hs⟩
  | deref =>
    have hpoint : ∀ p, s.consumer.ahead = 0 → r < s.enqueued.length → p = r % 2 ^ k →
        Inv k { s with consumer := .seen p (s.ring.data p) } r := by
      intro p hahead hlt hp
      refine h.withConsumer hahead ⟨hlt, hp, ?_⟩
      have hget : s.enqueued[r]? = some s.enqueued[r] := List.getElem?_eq_getElem hlt
      rw [hp, h.data_eq (by rw [hahead]; exact Nat.le_refl _) hget, hget]
    simp only [Spsc.consume] at hs
    split at hs
    · next p hc =>
      rw [← Option.some_inj.mp hs]
      rw [hc] at hok
      exact ⟨r, hpoint p (by rw [hc]; rfl) hok.1 hok.2⟩
    · next p x hc =>
      rw [← Option.some_inj.mp hs]
      rw [hc] at hok
      exact ⟨r, hpoint p (by rw [hc]; rfl) hok.1 hok.2.1⟩
    · cases hs
  | pop =>
    simp only [Spsc.consume] at hs
    split at hs
    · next p hc =>
      rw [← Option.some_inj.mp hs]
      rw [hc] at hok
      exact ⟨r, h.withConsumer (by rw [hc]; rfl) ⟨hok.1, h.read⟩⟩
    · next p x hc =>
      rw [← Option.some_inj.mp hs]
      rw [hc] at hok
      exact ⟨r, h.withConsumer (by rw [hc]; rfl) ⟨hok.1, h.read⟩⟩
    · cases hs
  | destroy =>
    simp only [Spsc.consume] at hs
    split at hs
    · next i hc =>
      rw [← Option.some_inj.mp hs]
      exact ⟨r, h.destroy hc⟩
    · cases hs
  | copy => exact ⟨r, h.copy hs⟩
  | release => exact h.release hs

end Inv

lemma step_inv {a : Act α} (h : ∃ r, Inv k s r) (hs : step s a = some s') : ∃ r, Inv k s' r := by
  obtain ⟨r, h⟩ := h
  cases a with
  | producer a => exact ⟨r, h.produce hs⟩
  | consumer a => exact h.consume hs

/-! ## A bounded queue -/

lemma Inv.mem_unconsumed (h : Inv k s r) {p : ℕ} :
    p ∈ s.unconsumed ↔ ∃ i, r ≤ i ∧ i < s.enqueued.length ∧ p = i % 2 ^ k := by
  rw [State.unconsumed, h.entries_eq h.read, List.mem_map]
  simp only [h.read, ← counter_add, h.pow.slot_eq, List.mem_range]
  constructor
  · rintro ⟨i, hi, rfl⟩
    exact ⟨r + i, Nat.le_add_right .., by omega, rfl⟩
  · rintro ⟨i, hle, hlt, rfl⟩
    exact ⟨i - r, by omega, by rw [Nat.add_sub_cancel' hle]⟩

/-- The producer's next slot lies behind all unconsumed values, and the ring is not full. -/
lemma Inv.nextWrite (h : Inv k s r) {p : ℕ} (hp : s.nextWrite = some p) : p ∉ s.unconsumed := by
  intro hmem
  obtain ⟨i, hle, hlt, rfl⟩ := h.mem_unconsumed.mp hmem
  have hok := h.producer
  unfold State.nextWrite at hp
  split at hp
  · next v w hprod =>
    rw [hprod] at hok
    obtain ⟨hw, hroom⟩ := hok
    rw [Option.some_inj, hw, h.pow.slot_eq] at hp
    exact slot_ne hlt (by omega) hp.symm
  · cases hp

/-- The consumer's next slot is that of an unconsumed value. -/
lemma Inv.nextRead (h : Inv k s r) {p : ℕ} (hp : s.nextRead = some p) :
    ∃ i v, r ≤ i ∧ s.enqueued[i]? = some v ∧ p = i % 2 ^ k ∧ s.ring.data p = some v := by
  have hok := h.consumer
  have hread : ∀ i, s.consumer.ahead = 0 → r ≤ i → i < s.enqueued.length → p = i % 2 ^ k →
      ∃ i v, r ≤ i ∧ s.enqueued[i]? = some v ∧ p = i % 2 ^ k ∧ s.ring.data p = some v := by
    intro i hahead hle hlt hi
    have hget : s.enqueued[i]? = some s.enqueued[i] := List.getElem?_eq_getElem hlt
    refine ⟨i, _, hle, hget, hi, ?_⟩
    rw [hi, h.data_eq (by rw [hahead]; exact hle) hget]
  unfold State.nextRead at hp
  split at hp
  · next q hc =>
    rw [hc] at hok
    rw [Option.some_inj] at hp
    exact hread r (by rw [hc]; rfl) (Nat.le_refl _) hok.1 (hp ▸ hok.2)
  · next q x hc =>
    rw [hc] at hok
    rw [Option.some_inj] at hp
    exact hread r (by rw [hc]; rfl) (Nat.le_refl _) hok.1 (hp ▸ hok.2.1)
  · next i hc =>
    rw [hc] at hok
    rw [Option.some_inj, hok.2, h.pow.slot_eq] at hp
    exact hread r (by rw [hc]; rfl) (Nat.le_refl _) hok.1 hp.symm
  · next v base i entries d q left hc =>
    rw [hc] at hok
    obtain ⟨-, e, j, -, hcop⟩ := hok
    have hpub := hcop.published
    have hmem : (d, q) ∈ (List.range e).map fun i => (i, (r + i) % 2 ^ k) := by
      refine List.mem_of_mem_drop (i := j) ?_
      rw [← hcop.left]
      exact List.mem_cons_self ..
    obtain ⟨l, hl, hlq⟩ := List.mem_map.mp hmem
    have hl := List.mem_range.mp hl
    rw [Option.some_inj] at hp
    refine hread (r + l) (by rw [hc]; rfl) (Nat.le_add_right ..) (by omega) ?_
    rw [← hp, ← (Prod.mk.inj hlq).2]
  · cases hp

/-- **`spsc_ring` is a bounded queue** under every interleaving of one producer and one consumer,
in every state of a run of any length: what the consumer has received is a prefix of what has been
enqueued, at most one less than the capacity is stored, the slot the producer is about to write
holds no unconsumed value, the slot the consumer is about to read holds one, and what `front` has
shown is the value that `pop` takes next. -/
theorem bounded_queue (size k : ℕ) (h₁ : 1 ≤ k) (h₂ : k < 64) (s : State α)
    (h : machine.Reachable (start size k) s) :
    s.received <+: s.enqueued.map some ∧
    (s.ring.indexWrite - s.ring.indexRead).toNat ≤ 2 ^ k - 1 ∧
    (∀ p, s.nextWrite = some p → p ∉ s.unconsumed) ∧
    (∀ p, s.nextRead = some p → p ∈ s.unconsumed ∧ ∃ v ∈ s.enqueued, s.ring.data p = some v) ∧
    ∀ p x, s.consumer = .seen p x → ∃ v, x = some v ∧ s.enqueued[s.received.length]? = some v := by
  obtain ⟨r, hinv⟩ := Machine.Reachable.invariant machine h (P := fun s => ∃ r, Inv k s r)
    ⟨0, inv_start size h₁ h₂⟩ (fun _ _ _ => step_inv)
  refine ⟨?_, ?_, fun p => hinv.nextWrite, fun p hp => ?_, fun p x hc => ?_⟩
  · rw [hinv.received]
    exact (List.take_prefix _ _).map some
  · rw [hinv.entries_eq hinv.read]
    have hroom := hinv.room
    omega
  · obtain ⟨i, v, hle, hv, hpi, hdata⟩ := hinv.nextRead hp
    obtain ⟨hlt, hget⟩ := List.getElem?_eq_some_iff.mp hv
    exact ⟨hinv.mem_unconsumed.mpr ⟨i, hle, hlt, hpi⟩, v, hget ▸ List.getElem_mem hlt, hdata⟩
  · have hok := hinv.consumer
    have hahead : s.consumer.ahead = 0 := by rw [hc]; rfl
    rw [hc] at hok
    obtain ⟨hlt, -, hx⟩ := hok
    have hlen : s.received.length = r := by
      rw [hinv.received, hahead, List.length_map, List.length_take]
      omega
    rw [hlen]
    exact ⟨s.enqueued[r], by rw [← hx]; exact List.getElem?_eq_getElem hlt,
      List.getElem?_eq_getElem hlt⟩

/-- A ring of four slots; the producer enqueues three values and finds the ring full, and the
consumer takes one out by `pop`, and the others, behind a slot that is written in the meantime,
by `batch_out`. -/
theorem bounded_queue_four_slots :
    ∃ s : State ℕ, machine.run (start 8 2)
        [.producer (.emplace 5), .producer .loadRead, .producer .construct, .producer .publish,
          .producer (.emplace 6), .producer .loadRead, .consumer .front, .producer .construct,
          .producer .publish, .producer (.tryEmplace 7), .producer .loadRead,
          .producer .construct, .producer .publish, .producer (.emplace 8), .producer .loadRead,
          .consumer .loadWrite, .consumer .deref, .consumer .pop, .consumer .destroy,
          .producer .loadRead, .consumer .release, .producer .loadRead,
          .consumer (.batchOut []), .consumer .loadWrite, .consumer .copy, .producer .construct,
          .consumer .copy, .consumer .release] = some s ∧
      s.received = [some 5, some 6, some 7] ∧ s.received <+: s.enqueued.map some := by
  have hrun : ((machine.run (start 8 2)
      [.producer (.emplace 5), .producer .loadRead, .producer .construct, .producer .publish,
        .producer (.emplace 6), .producer .loadRead, .consumer .front, .producer .construct,
        .producer .publish, .producer (.tryEmplace 7), .producer .loadRead,
        .producer .construct, .producer .publish, .producer (.emplace 8), .producer .loadRead,
        .consumer .loadWrite, .consumer .deref, .consumer .pop, .consumer .destroy,
        .producer .loadRead, .consumer .release, .producer .loadRead,
        .consumer (.batchOut []), .consumer .loadWrite, .consumer .copy, .producer .construct,
        .consumer .copy, .consumer .release]).map fun s : State ℕ => s.received)
      = some [some 5, some 6, some 7] := by decide +kernel
  obtain ⟨s, hs, hrec⟩ := Option.map_eq_some_iff.mp hrun
  exact ⟨s, hs, hrec, (bounded_queue 8 2 (by decide) (by decide) s ⟨_, hs⟩).1⟩

end Coring.Logging.Spsc
