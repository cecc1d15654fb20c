import Coring.Framework.Machine
import Coring.Logging.SpscRing

/-!
# The ring under any interleaving of its two parties

The producer runs `emplace` and `try_emplace`, the consumer `front`, `pop` and `batch_out`.
Every load of an index, every access to a slot and every store of an index is a step of its
own, and between any two steps of one party the other may take any number of its own.  Each
party therefore acts on a copy of the other's index that may be stale.

A value counts as enqueued when the write index is stored, and as received when `pop` destroys it
or `batch_out` stores the read index.
-/

namespace Coring.Logging.Spsc

/-! ## The parties -/

/-- Where the producer is. -/
inductive Producer (α : Type)
  | idle
  /-- In the loop of `emplace`, with the write index loaded. -/
  | emplace (v : α) (writeIndex : BitVec 64)
  /-- In `try_emplace`, with the write index loaded. -/
  | tryEmplace (v : α) (writeIndex : BitVec 64)
  /-- A free entry has been found. -/
  | construct (v : α) (writeIndex : BitVec 64)
  /-- The value is in its slot. -/
  | publish (v : α) (writeIndex : BitVec 64)

/-- Where the consumer is. -/
inductive Consumer (α : Type)
  | idle
  /-- In `front`, with the read index loaded. -/
  | front (readIndex : BitVec 64)
  /-- `front` has returned a pointer to this slot. -/
  | pointer (p : ℕ)
  /-- What is there has been read through the pointer. -/
  | seen (p : ℕ) (x : Option α)
  /-- In `pop`, with the read index loaded. -/
  | pop (readIndex : BitVec 64)
  /-- The value has been destroyed. -/
  | destroyed (readIndex : BitVec 64)
  /-- In `batch_out(v)`, with the read index loaded. -/
  | batchOut (v : List (Option α)) (readIndex : BitVec 64)
  /-- The vector, with `base` elements before the call, has been resized; these copies are left. -/
  | copying (v : List (Option α)) (base : ℕ) (readIndex entries : BitVec 64)
      (left : List (ℕ × ℕ))

structure State (α : Type) where
  ring : SpscRing α
  producer : Producer α
  consumer : Consumer α
  /-- The values enqueued, in order. -/
  enqueued : List α
  /-- What the consumer has taken out, in order. -/
  received : List (Option α)

inductive ProducerAct (α : Type)
  | emplace (v : α)
  | tryEmplace (v : α)
  | loadRead
  | construct
  | publish

inductive ConsumerAct (α : Type)
  | front
  | batchOut (v : List (Option α))
  | loadWrite
  | deref
  | pop
  | destroy
  | copy
  | release

inductive Act (α : Type)
  | producer (a : ProducerAct α)
  | consumer (a : ConsumerAct α)

variable {α : Type}

def produce (s : State α) : ProducerAct α → Option (State α)
  | .emplace v => match s.producer with
      | .idle => some { s with producer := .emplace v s.ring.indexWrite }
      | _ => none
  | .tryEmplace v => match s.producer with
      | .idle => some { s with producer := .tryEmplace v s.ring.indexWrite }
      | _ => none
  | .loadRead => match s.producer with
      | .emplace v w =>
          if s.ring.freeEntries s.ring.indexRead w = 0 then some s
          else some { s with producer := .construct v w }
      | .tryEmplace v w =>
          if s.ring.freeEntries s.ring.indexRead w = 0 then some { s with producer := .idle }
          else some { s with producer := .construct v w }
      | _ => none
  | .construct => match s.producer with
      | .construct v w =>
          some { s with
            ring := { s.ring with data := Function.update s.ring.data (s.ring.slot w) (some v) }
            producer := .publish v w }
      | _ => none
  | .publish => match s.producer with
      | .publish v w =>
          some { s with
            ring := { s.ring with indexWrite := w + 1 }
            producer := .idle
            enqueued := s.enqueued ++ [v] }
      | _ => none

/-- The consumer may call `front` or `batch_out`. -/
def Consumer.Free : Consumer α → Bool
  | .idle | .pointer _ | .seen .. => true
  | _ => false

def consume (s : State α) : ConsumerAct α → Option (State α)
  | .front =>
      if s.consumer.Free then some { s with consumer := .front s.ring.indexRead } else none
  | .batchOut v =>
      if s.consumer.Free then some { s with consumer := .batchOut v s.ring.indexRead } else none
  | .loadWrite => match s.consumer with
      | .front r =>
          let entries := s.ring.indexWrite - r
          if entries = 0 then some { s with consumer := .idle }
          else some { s with consumer := .pointer (s.ring.slot r) }
      | .batchOut v r =>
          let entries := s.ring.indexWrite - r
          if entries = 0 then some { s with consumer := .idle }
          else some { s with
            consumer := .copying (v ++ List.replicate entries.toNat none) v.length r entries
              (s.ring.copies r s.ring.indexWrite) }
      | _ => none
  | .deref => match s.consumer with
      | .pointer p | .seen p _ => some { s with consumer := .seen p (s.ring.data p) }
      | _ => none
  | .pop => match s.consumer with
      | .pointer _ | .seen .. => some { s with consumer := .pop s.ring.indexRead }
      | _ => none
  | .destroy => match s.consumer with
      | .pop r =>
          some { s with
            ring := { s.ring with data := Function.update s.ring.data (s.ring.slot r) none }
            consumer := .destroyed r
            received := s.received ++ [s.ring.data (s.ring.slot r)] }
      | _ => none
  | .copy => match s.consumer with
      | .copying v base r entries ((i, p) :: left) =>
          some { s with
            consumer := .copying (v.set (base + i) (s.ring.data p)) base r entries left }
      | _ => none
  | .release => match s.consumer with
      | .destroyed r =>
          some { s with ring := { s.ring with indexRead := r + 1 }, consumer := .idle }
      | .copying v base r entries [] =>
          some { s with
            ring := { s.ring with indexRead := r + entries }
            consumer := .idle
            received := s.received ++ v.drop base }
      | _ => none

def step (s : State α) : Act α → Option (State α)
  | .producer a => produce s a
  | .consumer a => consume s a

def machine : Machine (State α) (Act α) := ⟨step⟩

/-- A new ring of `2 ^ k` slots for values of a given size. -/
def start (size k : ℕ) : State α where
  ring := SpscRing.new size (BitVec.ofNat 64 (2 ^ k))
  producer := .idle
  consumer := .idle
  enqueued := []
  received := []

/-! ## What the parties are about to access -/

/-- The slots of the values that are published and not released. -/
def State.unconsumed (s : State α) : List ℕ :=
  (List.range (s.ring.indexWrite - s.ring.indexRead).toNat).map fun i =>
    s.ring.slot (s.ring.indexRead + counter 64 i)

/-- The slot the producer writes next. -/
def State.nextWrite (s : State α) : Option ℕ :=
  match s.producer with
  | .construct _ w => some (s.ring.slot w)
  | _ => none

/-- The slot the consumer reads next, the reads through the pointer included. -/
def State.nextRead (s : State α) : Option ℕ :=
  match s.consumer with
  | .pointer p | .seen p _ => some p
  | .pop r => some (s.ring.slot r)
  | .copying _ _ _ _ ((_, p) :: _) => some p
  | _ => none

end Coring.Logging.Spsc
