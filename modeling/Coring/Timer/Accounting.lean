import Coring.Timer.Refinement

/-!
# Every registration is resumed once

The account of the ledger, read off the state of the timer itself: `queuedIds` are the
registrations met by iterating over the queue, and `taken` those that the call in progress has
taken out of it and will resume, found by following the detached nodes in the first round and
in the vector of popped tokens in the second.

A registration is at every moment in exactly one of three places: resumed, taken, or queued.
While a call is in progress the second place is not empty in general.  Two registrations made
by a resumed continuation with timeout zero are popped together, and when the first of them is
resumed the other is neither resumed nor in the queue (`popped_registration_in_neither`).
-/

namespace Coring

namespace Skiplist

variable {κ ν : Type}

/-- The values met by following the links of level `0` from a pointer to the null pointer. -/
def chainValues (s : Skiplist κ ν) : ℕ → Option Addr → List ν
  | fuel + 1, some p =>
      match s.mem p with
      | some nd => nd.val :: chainValues s fuel (s.link 0 p)
      | none => []
  | _, _ => []

variable [LinearOrder κ] [BoundedOrder κ] [Inhabited ν] {s : Skiplist κ ν}
variable {cells : List (Cell κ ν)} {extra : ℕ}

/-- From a detached node on, the chain is the rest of the detached nodes. -/
lemma chainValues_spec : ∀ (front : List (Cell κ ν)) {loose : List (Cell κ ν)} {fuel : ℕ},
    Rep s cells (front ++ loose) extra → loose.length ≤ fuel →
    s.chainValues fuel (loose.head?.map Cell.addr) = loose.map Cell.val
  | _, [], fuel, _, _ => by cases fuel <;> rfl
  | front, c :: loose, fuel + 1, h, hfuel => by
      have hc : c ∈ cells ++ (front ++ c :: loose) := by simp
      obtain ⟨nd, hnd, -, hv, -⟩ := mem_of_shape (h.cell c hc)
      have hlink : s.link 0 c.addr = loose.head?.map Cell.addr := by
        have hseg := h.loose
        rw [List.map_append] at hseg
        have hnext := hseg.next_append
        rwa [List.head?_map] at hnext
      have h' : Rep s cells ((front ++ [c]) ++ loose) extra := by simpa using h
      simp only [List.head?_cons, Option.map_some, chainValues, hnd, hv, hlink,
        chainValues_spec _ h' (Nat.le_of_succ_le_succ hfuel), List.map_cons]

end Skiplist

namespace Timer

open Skiplist

variable {s : State} {cells loose : List QueueCell}

/-- The registrations in the queue, in its order. -/
def queuedIds (s : State) : List ℕ :=
  (s.queue.entries.getD []).map fun e => e.2.registration

/-- The registrations the call in progress has taken out of the queue and not yet resumed. -/
def taken (s : State) : List ℕ :=
  match s.pc with
  | .idle => []
  | .sweep _ cur _ => (s.queue.chainValues s.queue.fuel cur).map TimerToken.registration
  | .inSweep _ _ next _ => (s.queue.chainValues s.queue.fuel next).map TimerToken.registration
  | .drain _ ts _ | .inDrain _ ts _ => ts.map TimerToken.registration

/-- The wakeup point of a registration. -/
def wakeup (s : State) (id : ℕ) : ℤ := s.made.getD id 0

/-! ## Reading the ledger off the state -/

lemma Tracks.rep (h : Tracks s cells loose) : ∃ extra, Rep s.queue cells loose extra := by
  have hs := h.shape
  cases hpc : s.pc with
  | idle => rw [hpc] at hs; exact ⟨0, hs.1 ▸ hs.2.rep⟩
  | drain _ _ _ => rw [hpc] at hs; exact ⟨0, hs.1 ▸ hs.2.rep⟩
  | inDrain _ _ _ => rw [hpc] at hs; exact ⟨0, hs.1 ▸ hs.2.rep⟩
  | sweep _ _ _ => rw [hpc] at hs; exact ⟨_, hs.2⟩
  | inSweep _ _ _ _ =>
    rw [hpc] at hs
    obtain ⟨c, l, -, -, -, hrep⟩ := hs
    exact ⟨_, hrep⟩

lemma Tracks.queuedIds_eq (h : Tracks s cells loose) : queuedIds s = cells.map idOf := by
  obtain ⟨extra, hrep⟩ := h.rep
  rw [queuedIds, entries_spec hrep, Option.getD_some, contents, List.map_map]
  rfl

lemma Tracks.taken_eq (h : Tracks s cells loose) : taken s = batchOf s.pc loose := by
  obtain ⟨extra, hrep⟩ := h.rep
  have hfuel := hrep.length_lt_unused
  have hs := h.shape
  unfold taken
  cases hpc : s.pc with
  | idle => rfl
  | drain _ _ _ => rfl
  | inDrain _ _ _ => rfl
  | sweep st cur sz =>
    rw [hpc] at hs
    simp only [batchOf]
    rw [hs.1, chainValues_spec [] hrep (by rw [fuel]; omega), List.map_map]
    rfl
  | inSweep st cur next sz =>
    rw [hpc] at hs
    obtain ⟨c, l, rfl, -, rfl, -⟩ := hs
    rw [List.length_cons] at hfuel
    simp only [batchOf]
    rw [chainValues_spec [c] hrep (by rw [fuel]; omega), List.map_map]
    rfl

/-! ## The account -/

/-- What holds of the registrations at every moment. -/
structure Accounted (s : State) : Prop where
  /-- Each registration has been resumed once, or was taken out by the call in progress, or is
  in the queue: one of the three, and once. -/
  once : ∀ id < s.made.length,
    (s.resumed.map Prod.fst).count id + (taken s).count id + (queuedIds s).count id = 1
  /-- Only registrations that were made are resumed. -/
  resumed_made : ∀ r ∈ s.resumed, r.1 < s.made.length
  /-- Between calls none is taken. -/
  idle : s.pc = .idle → taken s = []
  /-- A registration is resumed by a call whose clock reading has reached its wakeup point. -/
  due : ∀ r ∈ s.resumed, wakeup s r.1 ≤ r.2.1
  /-- When a call has returned, what is left in the queue from before it has not expired. -/
  later : s.pc = .idle → ∀ c, s.call = some c → ∀ id ∈ queuedIds s, id < c.before →
    c.stampNow.1 < wakeup s id
  /-- A call resumes what was registered before it in the order of the wakeup points. -/
  ordered : ∀ c, s.call = some c →
    (((s.resumed.drop c.since).map Prod.fst).filter (· < c.before)).Pairwise
      fun i j => wakeup s i ≤ wakeup s j

lemma Tracks.accounted (h : Tracks s cells loose) (hg : (ledgerOf s cells loose).Good) :
    Accounted s := by
  have hq : (ledgerOf s cells loose).queued.map Prod.snd = queuedIds s := by
    rw [h.queuedIds_eq, ledgerOf, List.map_map]
    rfl
  have hb : (ledgerOf s cells loose).batch = taken s := h.taken_eq.symm
  constructor
  case once =>
    intro id hid
    have hone : (List.range s.made.length).count id = 1 :=
      List.count_eq_one_of_mem List.nodup_range (List.mem_range.mpr hid)
    have hcount : _ = (List.range s.made.length).count id := hg.account.count_eq id
    rw [hq, hb, List.count_append, List.count_append, hone] at hcount
    rw [Nat.add_assoc]
    exact hcount
  case resumed_made => exact fun r hr => hg.lt_made (.inl (List.mem_map_of_mem hr))
  case idle =>
    intro hpc
    rw [taken, hpc]
  case due => exact hg.due
  case later =>
    intro _ c hc id hid hlt
    rw [← hq] at hid
    obtain ⟨e, he, rfl⟩ := List.mem_map.mp hid
    have hkey := hg.key e he
    change wakeup s e.2 = e.1.1 at hkey
    rw [hkey]
    exact (hg.call c hc).later e he hlt
  case ordered =>
    intro c hc
    refine (hg.call c hc).ordered.sublist (List.Sublist.filter _ ?_)
    exact List.sublist_append_left _ _

lemma good_start (clock : Long) : (ledgerOf (start clock) [] []).Good where
  account := List.Perm.refl _
  key := fun e he => by cases he
  sorted := List.Pairwise.nil
  due := fun r hr => by cases hr
  call := fun c hc => by cases hc

/-- **No registration is lost, duplicated or resumed early.**  In every state of every run
without overflow the registrations are accounted for, and every action that can be taken
succeeds. -/
theorem registrations_accounted (clock : Long) (as : List Action) (s : State)
    (hover : machine.Each NoOverflow (start clock) as)
    (hrun : machine.run (start clock) as = some s) :
    Accounted s ∧ ∀ a, Enabled s a → ∃ s', step s a = some s' := by
  obtain ⟨cells, loose, htracks, hgood⟩ := machine.run_invariant_of_each
    (P := fun s => ∃ cells loose, Tracks s cells loose ∧ (ledgerOf s cells loose).Good)
    (fun s a s' ⟨cells, loose, h, hg⟩ hov hs => by
      obtain ⟨cells', loose', h', hstep⟩ := h.step hs
      exact ⟨cells', loose', h', hg.step (hstep hov)⟩)
    ⟨[], [], tracks_start clock, good_start clock⟩ hover hrun
  refine ⟨htracks.accounted hgood, fun a ha => ?_⟩
  obtain ⟨s', -, -, hs', -⟩ := step_tracks htracks ha
  exact ⟨s', hs'⟩

/-- A zero timeout whose continuation, when it is resumed, registers another one. -/
def oneNested : List Action :=
  [.addEvent 7 ⟨0, by decide⟩ ⟨1, by decide⟩, .handleEvents, .resume,
    .addEvent 8 ⟨0, by decide⟩ ⟨2, by decide⟩, .suspend, .finish, .resume, .suspend, .finish]

/-- After the call both have been resumed, the second by its second round. -/
theorem registrations_accounted_oneNested :
    ∃ s, machine.run (start ⟨10000, by decide⟩) oneNested = some s ∧ Accounted s ∧
      s.resumed.map Prod.fst = [0, 1] := by
  have hrun : (machine.run (start ⟨10000, by decide⟩) oneNested).map
      (fun s => s.resumed.map Prod.fst) = some [0, 1] := by decide +kernel
  obtain ⟨s, hs, hids⟩ := Option.map_eq_some_iff.mp hrun
  exact ⟨s, hs, (registrations_accounted _ oneNested s (by decide +kernel) hs).1, hids⟩

/-- A zero timeout whose continuation registers two more, up to where the second round has
popped both and the one made last is being resumed. -/
def twoNested : List Action :=
  [.addEvent 7 ⟨0, by decide⟩ ⟨1, by decide⟩, .handleEvents, .resume,
    .addEvent 8 ⟨0, by decide⟩ ⟨1, by decide⟩, .addEvent 9 ⟨0, by decide⟩ ⟨1, by decide⟩,
    .suspend, .finish, .resume]

/-- In the middle of a call a registration may be neither resumed nor in the queue. -/
theorem popped_registration_in_neither :
    machine.Each NoOverflow (start ⟨10000, by decide⟩) twoNested ∧
    ∃ s, machine.run (start ⟨10000, by decide⟩) twoNested = some s ∧
      ¬ ∀ id < s.made.length, id ∈ s.resumed.map Prod.fst ∨ id ∈ queuedIds s := by
  have hrun : (machine.run (start ⟨10000, by decide⟩) twoNested).map
      (fun s => (s.made.length, s.resumed.map Prod.fst, queuedIds s)) =
      some (3, [0, 2], []) := by decide +kernel
  obtain ⟨s, hs, heq⟩ := Option.map_eq_some_iff.mp hrun
  simp only [Prod.mk.injEq] at heq
  refine ⟨by decide +kernel, s, hs, fun hall => ?_⟩
  have h₁ := hall 1 (by omega)
  rw [heq.2.1, heq.2.2] at h₁
  exact absurd h₁ (by decide)

end Timer

end Coring
