import Mathlib.Data.List.Basic
import Mathlib.Data.List.Nodup

/-!
# Segments of singly linked structures

`nx a` is the successor field of a node `a`: another node, or `none` for a null field.
`Seg nx p l q` says that following the successors from `p` visits exactly the nodes `l`, in
this order, and then arrives at `q`; `NullSeg nx o l` says the same for a chain that starts
at the pointer `o` and ends in a null field.

The three rewriting rules are what a program does to such a chain: splicing a node in behind
a predecessor (`Seg.insert`), unlinking a node (`Seg.remove`), and cutting off a whole front
part so that the start points past it and the part ends in a null field (`Seg.cut`).  The
predecessor is always the last node of the part in front, or the start if that part is empty,
which `List.getLastD` names in both cases.

Where a field may not be readable at all, `nx a` is `none` for one that is not and `some none` for
a null one; `Trail nx p l` then says that every field from that of `p` on can be read, up to the
null one of the last node.
-/

namespace Coring

variable {α : Type*}

/-- Following `nx` from `p` visits exactly `l` and then arrives at `q`. -/
def Seg (nx : α → Option α) : α → List α → α → Prop
  | p, [], q => nx p = some q
  | p, a :: l, q => nx p = some a ∧ Seg nx a l q

/-- Following `nx` from the pointer `o` visits exactly `l` and then finds a null field. -/
def NullSeg (nx : α → Option α) : Option α → List α → Prop
  | o, [] => o = none
  | o, a :: l => o = some a ∧ NullSeg nx (nx a) l

lemma getLastD_append (p : α) : ∀ l r : List α,
    (l ++ r).getLastD p = r.getLastD (l.getLastD p)
  | [], _ => rfl
  | a :: l, r => by
      rw [List.cons_append, List.getLastD_cons, List.getLastD_cons, getLastD_append a l r]

section Seg

variable {nx nx' : α → Option α} {p q : α} {l r : List α}

/-- The first step of a segment. -/
lemma Seg.next (h : Seg nx p l q) : nx p = some (l.headD q) := by
  cases l with
  | nil => exact h
  | cons a l => exact h.1

/-- A segment may be followed from any node of it on. -/
lemma Seg.drop : ∀ {l : List α} {p : α}, Seg nx p (l ++ r) q → Seg nx (l.getLastD p) r q
  | [], _, h => h
  | a :: l, p, h => by
      rw [List.getLastD_cons]
      exact Seg.drop h.2

/-- The successor of a node of a segment is on the segment, or is where it arrives. -/
lemma Seg.mem_of_next {a b : α} : ∀ {l : List α} {p : α}, Seg nx p l q → a ∈ p :: l →
    nx a = some b → b ∈ l ∨ b = q
  | [], p, h, ha, hb => by
      rw [List.mem_singleton.mp ha, show nx p = some q from h, Option.some_inj] at hb
      exact .inr hb.symm
  | c :: l, p, h, ha, hb => by
      rcases List.mem_cons.mp ha with rfl | ha
      · rw [h.1, Option.some_inj] at hb
        exact .inl (hb ▸ List.mem_cons_self ..)
      · exact (Seg.mem_of_next h.2 ha hb).imp_left (List.mem_cons_of_mem _)

/-- A segment depends on the successors of its start and of its nodes only, and on the start
only through its successor. -/
lemma Seg.restart {p' : α} (h : Seg nx p l q) (hp : nx' p' = nx p)
    (hl : ∀ a ∈ l, nx' a = nx a) : Seg nx' p' l q := by
  induction l generalizing p p' with
  | nil => exact hp.trans h
  | cons a l ih =>
    exact ⟨hp.trans h.1, ih h.2 (hl a (List.mem_cons_self ..))
      (fun b hb => hl b (List.mem_cons_of_mem _ hb))⟩

lemma Seg.congr (h : Seg nx p l q) (hl : ∀ a ∈ p :: l, nx' a = nx a) : Seg nx' p l q :=
  h.restart (hl p (List.mem_cons_self ..)) (fun a ha => hl a (List.mem_cons_of_mem _ ha))

lemma NullSeg.congr {o : Option α} (h : NullSeg nx o l) (hl : ∀ a ∈ l, nx' a = nx a) :
    NullSeg nx' o l := by
  induction l generalizing o with
  | nil => exact h
  | cons a l ih =>
    refine ⟨h.1, ?_⟩
    rw [hl a (List.mem_cons_self ..)]
    exact ih h.2 (fun b hb => hl b (List.mem_cons_of_mem _ hb))

lemma NullSeg.head {o : Option α} (h : NullSeg nx o l) : o = l.head? := by
  cases l with
  | nil => exact h
  | cons a l => exact h.1

/-- The successor of a node in the middle of a chain that ends in a null field. -/
lemma NullSeg.next_append {a : α} : ∀ {l : List α} {o : Option α},
    NullSeg nx o (l ++ a :: r) → nx a = r.head?
  | [], _, h => h.2.head
  | _ :: _, _, h => NullSeg.next_append h.2

/-- Splicing in `a` behind the last node of `l`: its successor becomes that node's old
successor, and that node's successor becomes `a`. -/
lemma Seg.insert {a : α} (h : Seg nx p (l ++ r) q) (hnd : (p :: (l ++ r)).Nodup)
    (hlast : nx' (l.getLastD p) = some a) (ha : nx' a = nx (l.getLastD p))
    (hframe : ∀ b ∈ p :: (l ++ r), b ≠ l.getLastD p → nx' b = nx b) :
    Seg nx' p (l ++ a :: r) q := by
  induction l generalizing p with
  | nil =>
    refine ⟨hlast, Seg.restart h ha fun b hb => hframe b (List.mem_cons_of_mem _ hb) ?_⟩
    rintro rfl
    exact (List.nodup_cons.mp hnd).1 hb
  | cons c l ih =>
    rw [List.getLastD_cons] at hlast ha hframe
    have hp : p ≠ l.getLastD c := by
      intro hpc
      have hmem : l.getLastD c ∈ (c :: l) ++ r :=
        List.mem_append_left _ List.getLastD_mem_cons
      exact (List.nodup_cons.mp hnd).1 (hpc ▸ hmem)
    refine ⟨(hframe p (List.mem_cons_self ..) hp).trans h.1, ?_⟩
    exact ih h.2 (List.nodup_cons.mp hnd).2 hlast ha
      (fun b hb => hframe b (List.mem_cons_of_mem _ hb))

/-- Unlinking `d`: the node in front of it takes over its successor. -/
lemma Seg.remove {d : α} (h : Seg nx p (l ++ d :: r) q) (hnd : (p :: (l ++ d :: r)).Nodup)
    (hlast : nx' (l.getLastD p) = nx d)
    (hframe : ∀ b ∈ p :: (l ++ r), b ≠ l.getLastD p → nx' b = nx b) :
    Seg nx' p (l ++ r) q := by
  induction l generalizing p with
  | nil =>
    refine Seg.restart h.2 hlast fun b hb => hframe b (List.mem_cons_of_mem _ hb) ?_
    rintro rfl
    exact (List.nodup_cons.mp hnd).1 (List.mem_cons_of_mem _ hb)
  | cons c l ih =>
    rw [List.getLastD_cons] at hlast hframe
    have hp : p ≠ l.getLastD c := by
      intro hpc
      have hmem : l.getLastD c ∈ (c :: l) ++ d :: r :=
        List.mem_append_left _ List.getLastD_mem_cons
      exact (List.nodup_cons.mp hnd).1 (hpc ▸ hmem)
    refine ⟨(hframe p (List.mem_cons_self ..) hp).trans h.1, ?_⟩
    exact ih h.2 (List.nodup_cons.mp hnd).2 hlast
      (fun b hb => hframe b (List.mem_cons_of_mem _ hb))

/-- The front part of a segment, once its last node's successor field has been cleared. -/
lemma Seg.nullSeg (nx' : α → Option α) (h : Seg nx p (l ++ r) q) (hnd : (l ++ r).Nodup)
    (hlast : ∀ a ∈ l.getLast?, nx' a = none)
    (hframe : ∀ b ∈ l, b ∉ l.getLast? → nx' b = nx b) : NullSeg nx' l.head? l := by
  induction l generalizing p with
  | nil => rfl
  | cons c l ih =>
    refine ⟨rfl, ?_⟩
    cases l with
    | nil => exact hlast c rfl
    | cons d l =>
      have hc : c ∉ (c :: d :: l).getLast? := by
        intro hcl
        rw [List.getLast?_cons_cons] at hcl
        exact (List.nodup_cons.mp hnd).1 (List.mem_append_left _ (List.mem_of_getLast? hcl))
      rw [hframe c (List.mem_cons_self ..) hc, h.2.1]
      exact ih h.2 (List.nodup_cons.mp hnd).2
        (fun a ha => hlast a (by rwa [List.getLast?_cons_cons]))
        (fun b hb hbl => hframe b (List.mem_cons_of_mem _ hb)
          (by rwa [List.getLast?_cons_cons]))

/-- Cutting off the front part: the start takes over the successor of the part's last node. -/
lemma Seg.cut (h : Seg nx p (l ++ r) q) (hstart : nx' p = nx (l.getLastD p))
    (hframe : ∀ b ∈ r, nx' b = nx b) : Seg nx' p r q :=
  h.drop.restart hstart hframe

end Seg

section Trail

variable {nx : α → Option (Option α)} {p : α}

/-- Following `nx` from `p` visits exactly `l` and then finds a null field. -/
def Trail (nx : α → Option (Option α)) : α → List α → Prop
  | p, [] => nx p = some none
  | p, a :: l => nx p = some (some a) ∧ Trail nx a l

instance decidableTrail [DecidableEq α] (nx : α → Option (Option α)) :
    ∀ (p : α) (l : List α), Decidable (Trail nx p l)
  | p, [] => inferInstanceAs (Decidable (nx p = some none))
  | p, a :: l =>
      have := decidableTrail nx a l
      inferInstanceAs (Decidable (nx p = some (some a) ∧ Trail nx a l))

/-- A field that cannot be read is on no trail, -/
lemma not_trail (h : nx p = none) (l : List α) : ¬ Trail nx p l := by
  intro htrail
  cases l with
  | nil => cases htrail.symm.trans h
  | cons a l => cases htrail.1.symm.trans h

/-- a null field ends one, -/
lemma trail_iff_nil {l : List α} (h : nx p = some none) : Trail nx p l ↔ l = [] := by
  constructor
  · intro htrail
    cases l with
    | nil => rfl
    | cons a l => cases htrail.1.symm.trans h
  · rintro rfl
    exact h

/-- and any other is the first step of one. -/
lemma trail_iff_cons {q : α} {l : List α} (h : nx p = some (some q)) :
    Trail nx p l ↔ ∃ r, l = q :: r ∧ Trail nx q r := by
  constructor
  · intro htrail
    cases l with
    | nil => cases htrail.symm.trans h
    | cons a l =>
      have heq := htrail.1.symm.trans h
      rw [Option.some_inj, Option.some_inj] at heq
      subst heq
      exact ⟨l, rfl, htrail.2⟩
  · rintro ⟨r, rfl, hrest⟩
    exact ⟨h, hrest⟩

/-- There is only one way to follow the fields. -/
lemma Trail.unique {l r : List α} (hl : Trail nx p l) (hr : Trail nx p r) : l = r := by
  induction l generalizing p r with
  | nil => exact ((trail_iff_nil hl).mp hr).symm
  | cons a l ih =>
    obtain ⟨r', rfl, hrest⟩ := (trail_iff_cons hl.1).mp hr
    rw [ih hl.2 hrest]

/-- A trail is one wherever its fields are the same. -/
lemma Trail.congr {nx' : α → Option (Option α)} {l : List α} (h : Trail nx p l)
    (hl : ∀ a ∈ p :: l, nx' a = nx a) : Trail nx' p l := by
  induction l generalizing p with
  | nil => exact (hl p List.mem_cons_self).trans h
  | cons a l ih =>
    exact ⟨(hl p List.mem_cons_self).trans h.1,
      ih h.2 fun b hb => hl b (List.mem_cons_of_mem p hb)⟩

/-- A segment whose fields can all be read, up to a node with a null field. -/
lemma Seg.trail {lk : α → Option α} {l : List α} {q : α} (h : Seg lk p l q)
    (hread : ∀ a b, lk a = some b → nx a = some (some b)) (hend : nx q = some none) :
    Trail nx p (l ++ [q]) := by
  induction l generalizing p with
  | nil => exact ⟨hread p q h, hend⟩
  | cons a l ih => exact ⟨hread p a h.1, ih h.2⟩

end Trail

end Coring
