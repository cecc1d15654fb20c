import Coring.Skiplist.Refinement
import Coring.Timer.Accounting
import Mathlib.Data.Multiset.ZeroCons

/-!
# When a timer is armed exactly

Three conversions stand between a timeout and the timespec the kernel is given: `add_event` adds the
timeout to the clock, `get_next_expiration` subtracts the clock again, and `make_timespec` turns
microseconds into nanoseconds.  Each of them is an operation on 64-bit integers, and each leaves
their range for some timeouts.

A sum that leaves the range is stored as a negative number, so the registration has expired when it
is made.  The distance to such a wakeup point leaves the range at the other end.  The product leaves
it from about 292 years on.  `armed_iff` says that the timer is armed exactly if and only if none of
this happens.
-/

namespace Coring

namespace Long

/-- A wrapped number is the number up to whole rounds. -/
lemma exists_wrap_eq (x : ℤ) : ∃ q, (wrap x).1 = x + 2 ^ 64 * q := by
  refine ⟨-x.bdiv (2 ^ 64), ?_⟩
  rw [Int.mul_neg, ← Int.sub_eq_add_neg]
  exact Int.bmod_eq_self_sub_mul_bdiv x (2 ^ 64)

lemma coe_max (a b : Long) : (max a b).1 = max a.1 b.1 := by
  rcases le_total a b with hab | hab
  · rw [max_eq_right hab, max_eq_right (show a.1 ≤ b.1 from hab)]
  · rw [max_eq_left hab, max_eq_left (show b.1 ≤ a.1 from hab)]

end Long

/-! ## The conversions -/

/-- The timespec is in normal form, and lasts that many nanoseconds. -/
def Timespec.Lasts (ts : Timespec) (ns : ℤ) : Prop :=
  0 ≤ ts.tvSec ∧ 0 ≤ ts.tvNsec ∧ ts.tvNsec < 10 ^ 9 ∧ ts.tvSec * 10 ^ 9 + ts.tvNsec = ns

instance (ts : Timespec) (ns : ℤ) : Decidable (ts.Lasts ns) :=
  inferInstanceAs (Decidable (_ ∧ _ ∧ _ ∧ _))

lemma makeTimespec_lasts_iff (d : Long) {ns : ℤ} (hns : 0 ≤ ns) :
    (makeTimespec d).Lasts ns ↔ (Long.wrap (d.1 * 1000)).1 = ns := by
  have hsum := Int.tdiv_mul_add_tmod (Long.wrap (d.1 * 1000)).1 1000000000
  simp only [Timespec.Lasts, makeTimespec]
  constructor
  · rintro ⟨-, -, -, heq⟩
    omega
  · intro heq
    rw [heq] at hsum ⊢
    rw [Int.tdiv_eq_ediv_of_nonneg hns, Int.tmod_eq_emod_of_nonneg hns] at *
    omega

/-- The clock, in microseconds, is far from the end of its range. -/
lemma stamp_bounds (clock : Long) (h : 0 ≤ clock.1) :
    0 ≤ (stamp clock).1 ∧ (stamp clock).1 * 1000 ≤ clock.1 := by
  have heq : (stamp clock).1 = clock.1 / 1000 := by
    change micros clock.1 = _
    rw [micros_eq, if_pos h]
  omega

/-- **The subtraction and the two conversions together.**  The distance `d` to a wakeup point, as
the clock allows it, becomes a timespec of its length if the distance itself and its nanoseconds are
in range. -/
lemma distance_lasts_iff {d : ℤ} (hlow : -2 ^ 63 - 2 ^ 63 / 1000 ≤ d) (hhigh : d < 2 ^ 63) :
    (makeTimespec (max (Long.wrap 0) (Long.wrap d))).Lasts (1000 * max 0 d) ↔
      -2 ^ 63 ≤ d ∧ 1000 * d < 2 ^ 63 := by
  have hmax : (max (Long.wrap 0) (Long.wrap d)).1 = max 0 (Long.wrap d).1 := Long.coe_max _ _
  rw [makeTimespec_lasts_iff _ (by omega), hmax]
  by_cases hrange : -2 ^ 63 ≤ d
  · rw [Long.wrap_of_inRange ⟨hrange, hhigh⟩]
    constructor
    · intro heq
      have htop := (Long.wrap (max 0 d * 1000)).2.2
      omega
    · rintro ⟨-, hns⟩
      rw [Long.wrap_of_inRange ⟨by omega, by omega⟩, Int.mul_comm]
  · have hd : (Long.wrap d).1 = d + 2 ^ 64 := by
      obtain ⟨r, hr⟩ := Long.exists_wrap_eq d
      have hbounds := (Long.wrap d).2
      omega
    -- The distance wraps around to a large positive one, and its nanoseconds are no whole round.
    have hround : (Long.wrap ((d + 2 ^ 64) * 1000)).1 ≠ 0 := by
      obtain ⟨q, hq⟩ := Long.exists_wrap_eq ((d + 2 ^ 64) * 1000)
      rw [hq]
      clear hmax hd hq
      rcases le_or_gt q (-500) with hrounds | hrounds
      · have hneg : (d + 2 ^ 64) * 1000 + 2 ^ 64 * q < 0 := by omega
        exact hneg.ne
      · have hpos : 0 < (d + 2 ^ 64) * 1000 + 2 ^ 64 * q := by omega
        exact hpos.ne'
    rw [hd, max_eq_right (by omega : 0 ≤ d + 2 ^ 64), max_eq_left (by omega : d ≤ 0), Int.mul_zero]
    exact ⟨fun heq => absurd heq hround, fun h => absurd h.1 hrange⟩

namespace Timer

open Skiplist

/-! ## The timer -/

/-- The earliest wakeup point in the queue. -/
def earliest (s : State) : Option Long := ((s.queue.entries.getD []).map Prod.fst).min?

/-- The wakeup point stored for a registration made from `s` to `s'` is not before the clock. -/
def StoredAhead (s s' : State) (t : TimerToken) : Prop :=
  ∃ L w, s.queue.entries = some L ∧ s'.queue.entries = some (SortedList.put L (w, t)) ∧
    stamp s.clock ≤ w

/-- `get_next_expiration` returns the time to the earliest wakeup point, or zero if that is past. -/
def ExpiresExactly (s : State) : Prop :=
  ∃ e ts, earliest s = some e ∧ getNextExpiration s = some ts ∧
    ts.Lasts (1000 * max 0 (e.1 - (stamp s.clock).1))

variable {s s' : State} {cells loose : List QueueCell} {extra : ℕ}

lemma earliest_of_rep {c : QueueCell} (h : Rep s.queue (c :: cells) loose extra) :
    earliest s = some c.key := by
  rw [earliest, entries_spec h, Option.getD_some, contents, List.map_map, List.min?_eq_some_iff]
  refine ⟨List.mem_cons_self .., fun k hk => ?_⟩
  obtain ⟨d, hd, rfl⟩ := List.mem_map.mp hk
  rcases List.mem_cons.mp hd with rfl | hd
  · exact le_rfl
  · exact (List.pairwise_cons.mp h.sorted).1 d hd

/-- What was put into a list can be told from the result. -/
lemma put_left_inj {κ ν : Type} [LinearOrder κ] {L : List (κ × ν)} {x y : κ × ν}
    (h : SortedList.put L x = SortedList.put L y) : x = y := by
  have hperm : ∀ e, (SortedList.put L e : Multiset (κ × ν)) = e ::ₘ (L : Multiset (κ × ν)) := by
    intro e
    rw [SortedList.put, Multiset.cons_coe, Multiset.coe_eq_coe]
    refine List.perm_middle.trans (List.Perm.cons _ ?_)
    rw [List.takeWhile_append_dropWhile]
  have hcons := hperm y
  rw [← h, hperm x] at hcons
  exact (Multiset.cons_inj_left _).mp hcons

/-- A wakeup point is stored ahead of the clock if the sum is in range. -/
lemma storedAhead_iff (h : Rep s.queue cells loose extra) (hnow : 0 ≤ s.clock.1) {cont : Handle}
    {timeout : Long} (htimeout : 0 ≤ timeout.1) {level : Level}
    (hadd : addEvent s cont timeout level = some s') :
    StoredAhead s s' ⟨cont, s.made.length⟩ ↔ (stamp s.clock).1 + timeout.1 < 2 ^ 63 := by
  obtain ⟨hpos, -⟩ := stamp_bounds s.clock hnow
  have hlt := (stamp s.clock).2.2
  have htop := timeout.2.2
  set w := Long.wrap ((stamp s.clock).1 + timeout.1) with hw
  have hentries : s'.queue.entries
      = some (SortedList.put (contents cells) (w, ⟨cont, s.made.length⟩)) := by
    obtain ⟨q, hq, hrep, -⟩ := emplace_spec h w ⟨cont, s.made.length⟩ level
    simp only [addEvent, ← hw, hq, Option.bind_eq_bind, Option.bind_some, Option.some_inj] at hadd
    rw [← hadd]
    exact (entries_spec hrep).trans (by rw [contents_inserted])
  constructor
  · rintro ⟨L, w', hL, hput, hle⟩
    rw [entries_spec h, Option.some_inj] at hL
    rw [hentries, Option.some_inj, hL] at hput
    have heq : w = w' := congrArg Prod.fst (put_left_inj hput)
    have hle' : (stamp s.clock).1 ≤ w.1 := heq ▸ hle
    obtain ⟨q, hq⟩ := Long.exists_wrap_eq ((stamp s.clock).1 + timeout.1)
    have hbounds := w.2
    rw [← hw] at hq
    omega
  · intro hsum
    refine ⟨_, w, entries_spec h, hentries, ?_⟩
    have hin : w.1 = (stamp s.clock).1 + timeout.1 := Long.wrap_of_inRange ⟨by omega, hsum⟩
    change (stamp s.clock).1 ≤ w.1
    omega

lemma expiresExactly_iff (h : Rep s.queue cells loose extra) (hnow : 0 ≤ s.clock.1) {e : Long}
    (he : earliest s = some e) :
    ExpiresExactly s ↔ -2 ^ 63 ≤ e.1 - (stamp s.clock).1 ∧
      1000 * (e.1 - (stamp s.clock).1) < 2 ^ 63 := by
  obtain ⟨hpos, hmicros⟩ := stamp_bounds s.clock hnow
  have hclock := s.clock.2.2
  have hbounds := e.2
  cases cells with
  | nil =>
    rw [earliest, entries_spec h] at he
    cases he
  | cons c cells =>
    have hc : c.key = e := by
      rw [earliest_of_rep h, Option.some_inj] at he
      exact he
    rw [← distance_lasts_iff (by omega) (by omega), ExpiresExactly, he,
      getNextExpiration_spec h, hc]
    constructor
    · rintro ⟨_, _, ⟨⟩, ⟨⟩, hlasts⟩
      exact hlasts
    · intro hlasts
      exact ⟨e, _, rfl, rfl, hlasts⟩

/-! ## Runs -/

lemma popExpired_clock {st : Long} {sz : ℕ} (h : popExpired s st sz = some s') :
    s'.clock = s.clock := by
  simp only [popExpired, Option.bind_eq_bind, Option.bind_eq_some_iff, Option.some_inj] at h
  obtain ⟨_, _, rfl⟩ := h
  rfl

lemma handleEvents_clock (h : handleEvents s = some s') : s'.clock = s.clock := by
  simp only [handleEvents] at h
  split at h
  · rw [← Option.some_inj.mp h]
  · obtain ⟨⟨q, first⟩, -, h⟩ := Option.bind_eq_some_iff.mp h
    cases first with
    | none =>
      have hpop : popExpired { s with
          queue := q, call := some ⟨stamp s.clock, s.made.length, s.resumed.length⟩ }
          (stamp s.clock) 0 = some s' := h
      rw [popExpired_clock hpop]
    | some start =>
      rw [← Option.some_inj.mp h]

/-- Time does not go back. -/
lemma clock_le_step {a : Action} (h : step s a = some s') : s.clock.1 ≤ s'.clock.1 := by
  cases a with
  | tick ns =>
    simp only [step] at h
    split at h
    · rw [← Option.some_inj.mp h]
      exact Int.le_add_of_nonneg_right (Int.natCast_nonneg ns)
    · cases h
  | addEvent cont timeout level =>
    simp only [step] at h
    split at h
    · rw [(addEvent_frame h).2]
    · cases h
  | handleEvents =>
    simp only [step] at h
    split at h
    · rw [handleEvents_clock h]
    · cases h
  | resume =>
    simp only [step, resume] at h
    split at h
    · simp only [Option.bind_eq_bind, Option.bind_eq_some_iff, Option.some_inj] at h
      obtain ⟨_, _, _, _, rfl⟩ := h
      exact le_rfl
    · rw [← Option.some_inj.mp h]
    · cases h
  | suspend =>
    simp only [step, suspend] at h
    split at h
    · simp only [Option.bind_eq_bind, Option.bind_eq_some_iff, Option.some_inj] at h
      obtain ⟨_, _, rfl⟩ := h
      exact le_rfl
    · rw [← Option.some_inj.mp h]
    · cases h
  | finish =>
    simp only [step, finish] at h
    split at h
    · rw [popExpired_clock h]
    · rw [← Option.some_inj.mp h]
    · cases h

/-- What is known of the queue after a run, however large the timeouts were. -/
lemma rep_of_run {as : List Action} (h : ∃ cells loose, Tracks s cells loose)
    (hrun : machine.run s as = some s') : ∃ cells loose, Tracks s' cells loose := by
  refine machine.run_invariant (P := fun s => ∃ cells loose, Tracks s cells loose) ?_ h hrun
  rintro s a s' ⟨cells, loose, htracks⟩ hstep
  obtain ⟨cells', loose', htracks', -⟩ := htracks.step hstep
  exact ⟨cells', loose', htracks'⟩

/-- **When a timer is armed exactly.**  For a timeout registered at any time of any run, and for any
later time with the queue not empty: the wakeup point stored is not before the clock, and the
timespec then handed out lasts exactly until the earliest wakeup point, if and only if the sum of
clock and timeout, the distance to the earliest wakeup point and its nanoseconds are all in the
range of 64 bits. -/
theorem armed_iff (clock : Long) (before after : List Action) (s s' s'' : State)
    (hbefore : machine.run (start clock) before = some s) (hnow : 0 ≤ s.clock.1)
    (cont : Handle) (timeout : Long) (htimeout : 0 ≤ timeout.1) (level : Level)
    (hadd : step s (.addEvent cont timeout level) = some s')
    (hafter : machine.run s' after = some s'') (e : Long) (he : earliest s'' = some e) :
    (StoredAhead s s' ⟨cont, s.made.length⟩ ∧ ExpiresExactly s'') ↔
      (stamp s.clock).1 + timeout.1 < 2 ^ 63 ∧
      -2 ^ 63 ≤ e.1 - (stamp s''.clock).1 ∧ 1000 * (e.1 - (stamp s''.clock).1) < 2 ^ 63 := by
  obtain ⟨cells, loose, htracks⟩ := rep_of_run ⟨[], [], tracks_start clock⟩ hbefore
  obtain ⟨cells', loose', htracks', -⟩ := htracks.step hadd
  obtain ⟨cells'', loose'', htracks''⟩ := rep_of_run ⟨cells', loose', htracks'⟩ hafter
  have hlater : 0 ≤ s''.clock.1 := by
    refine machine.run_invariant (P := fun s => 0 ≤ s.clock.1) ?_
      (hnow.trans (clock_le_step hadd)) hafter
    exact fun _ _ _ hs hstep => hs.trans (clock_le_step hstep)
  have hcall : addEvent s cont timeout level = some s' := by
    simp only [step] at hadd
    split at hadd
    · exact hadd
    · cases hadd
  obtain ⟨extra, hrep⟩ := htracks.rep
  obtain ⟨extra'', hrep''⟩ := htracks''.rep
  rw [storedAhead_iff hrep hnow htimeout hcall, expiresExactly_iff hrep'' hlater he]

/-- A registration for 100 microseconds, three of which have passed. -/
theorem armed_iff_three_microseconds_later :
    ∃ s' s'', step (start ⟨5000, by decide⟩) (.addEvent 7 ⟨100, by decide⟩ ⟨1, by decide⟩)
        = some s' ∧ machine.run s' [.tick 3000] = some s'' ∧
      StoredAhead (start ⟨5000, by decide⟩) s' ⟨7, 0⟩ ∧ ExpiresExactly s'' ∧
      getNextExpiration s'' = some ⟨0, 97000⟩ := by
  have hstep : ∃ s' s'', step (start ⟨5000, by decide⟩)
        (.addEvent 7 ⟨100, by decide⟩ ⟨1, by decide⟩) = some s' ∧
      machine.run s' [.tick 3000] = some s'' ∧ earliest s'' = some ⟨105, by decide⟩ ∧
      (stamp s''.clock).1 = 8 ∧ getNextExpiration s'' = some ⟨0, 97000⟩ :=
    ⟨_, _, rfl, rfl, rfl, rfl, rfl⟩
  obtain ⟨s', s'', hadd, hafter, he, hnow, hnext⟩ := hstep
  obtain ⟨hstored, hexact⟩ := (armed_iff ⟨5000, by decide⟩ [] [.tick 3000] _ s' s'' rfl (by decide)
    7 ⟨100, by decide⟩ (by decide) ⟨1, by decide⟩ hadd hafter _ he).mpr
      ⟨by decide, by rw [hnow]; decide, by rw [hnow]; decide⟩
  exact ⟨s', s'', hadd, hafter, hstored, hexact, hnext⟩

/-- One microsecond after the epoch: the longest timeout is stored as a wakeup point long before
it, and a timeout of 317 years is handed to the kernel as a negative one. -/
theorem armed_fails_on_long_timeouts :
    (∃ s', step (start ⟨1000, by decide⟩) (.addEvent 7 ⊤ ⟨1, by decide⟩) = some s' ∧
      earliest s' = some ⊥ ∧ ¬ StoredAhead (start ⟨1000, by decide⟩) s' ⟨7, 0⟩) ∧
    (∃ s', step (start ⟨1000, by decide⟩)
        (.addEvent 7 ⟨10000000000000000, by decide⟩ ⟨1, by decide⟩) = some s' ∧
      getNextExpiration s' = some ⟨-8446744073, -709551616⟩ ∧ ¬ ExpiresExactly s') := by
  refine ⟨?_, ⟨_, rfl, rfl, ?_⟩⟩
  · have hadd : ∃ s', addEvent (start ⟨1000, by decide⟩) 7 ⊤ ⟨1, by decide⟩ = some s' ∧
        earliest s' = some ⊥ := ⟨_, rfl, rfl⟩
    obtain ⟨s', hs', he⟩ := hadd
    refine ⟨s', hs', he, fun h => ?_⟩
    have hsum := (storedAhead_iff (s := start ⟨1000, by decide⟩) settled_empty.rep (by decide)
      (by decide) hs').mp h
    exact absurd hsum (by decide)
  · rintro ⟨e, ts, -, hts, hsec, -⟩
    obtain rfl := Option.some_inj.mp hts
    exact absurd hsec (by decide)

end Timer

end Coring
