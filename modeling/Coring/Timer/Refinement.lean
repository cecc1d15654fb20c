import Coring.Skiplist.Operations
import Coring.Timer.Ledger

/-!
# The timer keeps the ledger

The state of a timer is related to the cells of its queue: those in the list, and those that
the sweep in progress has detached.  `Tracks` is this relation, with the position of
`handle_events` deciding what is detached and by how much `length_` is ahead; `ledgerOf` reads
the ledger off it.  `step_tracks` shows that an action that can be taken succeeds, so the code
follows no bad pointer on the way, keeps the relation, and is one step of the ledger.
-/

namespace Coring.Timer

open Skiplist

/-- A cell of the queue. -/
abbrev QueueCell := Cell Long TimerToken

variable {s s' : State} {q : TimerQueue} {cells loose : List QueueCell} {pc : Pc}

/-- The number of a cell's registration. -/
def idOf (c : QueueCell) : ℕ := c.val.registration

/-- What the queue looks like at each position of `handle_events`. -/
def Shape (pc : Pc) (q : TimerQueue) (cells loose : List QueueCell) : Prop :=
  match pc with
  | .idle | .drain .. | .inDrain .. => loose = [] ∧ Settled q cells
  | .sweep _ cur sz => cur = loose.head?.map Cell.addr ∧ Rep q cells loose (sz + loose.length)
  | .inSweep _ cur next sz => ∃ c l, loose = c :: l ∧ cur = c.addr ∧
      next = l.head?.map Cell.addr ∧ Rep q cells loose (sz + l.length)

/-- The clock reading of the call in progress. -/
def Pc.stampNow : Pc → Option Long
  | .idle => none
  | .sweep st .. | .inSweep st .. | .drain st .. | .inDrain st .. => some st

/-- The registrations taken out of the queue and not yet resumed. -/
def batchOf (pc : Pc) (loose : List QueueCell) : List ℕ :=
  match pc with
  | .idle => []
  | .sweep .. => loose.map idOf
  | .inSweep .. => loose.tail.map idOf
  | .drain _ ts _ | .inDrain _ ts _ => ts.map TimerToken.registration

structure Tracks (s : State) (cells loose : List QueueCell) : Prop where
  shape : Shape s.pc s.queue cells loose
  call : ∀ st, s.pc.stampNow = some st → st < ⊤ ∧ ∃ c, s.call = some c ∧ c.stampNow = st

/-- The ledger of a state. -/
def ledgerOf (s : State) (cells loose : List QueueCell) : Ledger where
  queued := cells.map fun c => (c.key, idOf c)
  batch := batchOf s.pc loose
  made := s.made
  resumed := s.resumed
  call := s.call

/-- No overflow in the computation of a wakeup point. -/
def NoOverflow (s : State) : Action → Prop
  | .addEvent _ timeout _ => Long.InRange ((stamp s.clock).1 + timeout.1)
  | _ => True

instance (s : State) : (a : Action) → Decidable (NoOverflow s a)
  | .addEvent .. => inferInstanceAs (Decidable (Long.InRange _))
  | .tick _ | .handleEvents | .resume | .suspend | .finish => inferInstanceAs (Decidable True)

lemma tracks_start (clock : Long) : Tracks (start clock) [] [] :=
  ⟨⟨rfl, settled_empty⟩, fun _ h => by cases h⟩

/-- Between calls the queue is settled. -/
lemma Tracks.settled (h : Tracks s cells loose) (hpc : s.pc = .idle) :
    Settled s.queue cells := by
  have hs := h.shape
  rw [hpc] at hs
  exact hs.2

/-! ## Registering -/

lemma Shape.emplace (h : Shape pc q cells loose) (key : Long) (t : TimerToken) (level : Level) :
    ∃ q', q.emplace key t level = some (q', q.unused) ∧
      Shape pc q' (inserted cells ⟨q.unused, key, t, level.1⟩) loose := by
  have hsettled : loose = [] ∧ Settled q cells → ∃ q', q.emplace key t level =
      some (q', q.unused) ∧ (loose = [] ∧
        Settled q' (inserted cells ⟨q.unused, key, t, level.1⟩)) := by
    rintro ⟨hl, hset⟩
    obtain ⟨q', hq', hrep, htight⟩ := emplace_spec hset.rep key t level
    exact ⟨q', hq', hl, hrep, htight hset.tight⟩
  cases pc with
  | idle => exact hsettled h
  | drain _ _ _ => exact hsettled h
  | inDrain _ _ _ => exact hsettled h
  | sweep _ cur sz =>
    obtain ⟨q', hq', hrep, -⟩ := emplace_spec h.2 key t level
    exact ⟨q', hq', h.1, hrep⟩
  | inSweep _ cur next sz =>
    obtain ⟨c, l, hl, hcur, hnext, hrep⟩ := h
    obtain ⟨q', hq', hrep', -⟩ := emplace_spec hrep key t level
    exact ⟨q', hq', c, l, hl, hcur, hnext, hrep'⟩

lemma ledgerOf_inserted (c : QueueCell) (q : TimerQueue) (w : ℤ)
    (hid : idOf c = s.made.length) :
    ledgerOf { s with queue := q, made := s.made ++ [w] } (inserted cells c) loose
      = (ledgerOf s cells loose).register c.key w := by
  simp only [ledgerOf, Ledger.register, inserted, List.map_append, List.map_cons,
    List.takeWhile_map, List.dropWhile_map, hid]
  rfl

/-! ## Popping -/

lemma popExpired_spec (h : Settled q cells) (st : Long) (hst : st < ⊤) (sz : ℕ) (s : State) :
    ∃ q', popExpired { s with queue := q } st sz = some { s with
        queue := q', pc := .drain st ((upTo st cells).map Cell.val) sz } ∧
      Settled q' (beyond st cells) := by
  obtain ⟨q', hq', hset⟩ := popLessEq_spec h hst
  refine ⟨q', ?_, hset⟩
  simp only [popExpired, hq', Option.bind_eq_bind, Option.bind_some]

lemma queued_beyond (st : Long) : (beyond st cells).map (fun c => (c.key, idOf c))
    = (cells.map fun c => (c.key, idOf c)).dropWhile fun e => e.1 ≤ st := by
  rw [List.dropWhile_map]
  rfl

lemma ids_upTo (st : Long) : (upTo st cells).map idOf
    = ((cells.map fun c => (c.key, idOf c)).takeWhile fun e => e.1 ≤ st).map Prod.snd := by
  rw [List.takeWhile_map, List.map_map]
  rfl

/-! ## One step -/

/-- What is shown of each action. -/
def Simulates (s : State) (cells loose : List QueueCell) (r : Option State) (ok : Prop) : Prop :=
  ∃ s' cells' loose', r = some s' ∧ Tracks s' cells' loose' ∧
    (ok → Ledger.Step (ledgerOf s cells loose) (ledgerOf s' cells' loose'))

lemma addEvent_simulates (h : Tracks s cells loose) (cont : Handle) (timeout : Long)
    (level : Level) : Simulates s cells loose (addEvent s cont timeout level)
      (Long.InRange ((stamp s.clock).1 + timeout.1)) := by
  obtain ⟨q', hq', hshape⟩ := h.shape.emplace
    (Long.wrap ((stamp s.clock).1 + timeout.1)) ⟨cont, s.made.length⟩ level
  refine ⟨{ s with queue := q', made := s.made ++ [(stamp s.clock).1 + timeout.1] }, _, loose,
    ?_, ⟨hshape, h.call⟩, fun hrange => ?_⟩
  · simp only [addEvent, hq', Option.bind_eq_bind, Option.bind_some]
  · rw [ledgerOf_inserted _ _ _ rfl]
    exact .register _ (Long.wrap_of_inRange hrange)

lemma isEmpty_iff (h : Settled q cells) : q.isEmpty = true ↔ cells = [] := by
  rw [isEmpty, decide_eq_true_iff, h.rep.length, Nat.add_zero, List.length_eq_zero_iff]

/-- The ledger of a state in which what has expired was taken out. -/
lemma ledgerOf_taken (s : State) (loose : List QueueCell) {st : Long} {q' : TimerQueue} {pc' : Pc}
    {loose' : List QueueCell} (hb : batchOf pc' loose' = (upTo st cells).map idOf) :
    ledgerOf { s with queue := q', pc := pc' } (beyond st cells) loose'
      = (ledgerOf s cells loose).take st := by
  simp only [ledgerOf, Ledger.take, queued_beyond, hb, ids_upTo]

lemma batchOf_popped (st : Long) (sz : ℕ) :
    batchOf (.drain st ((upTo st cells).map Cell.val) sz) loose = (upTo st cells).map idOf := by
  rw [batchOf, List.map_map]
  rfl

lemma handleEvents_simulates (h : Tracks s cells loose) (hpc : s.pc = .idle) :
    Simulates s cells loose (handleEvents s) True := by
  have hset := h.settled hpc
  have htop := stamp_lt_top s.clock
  set st := stamp s.clock with hst
  set t : State := { s with call := some ⟨st, s.made.length, s.resumed.length⟩ } with ht
  have hbatch : (ledgerOf s cells loose).batch = [] := by rw [ledgerOf, hpc]; rfl
  have hcall : ∀ st', some st = some st' → st' < ⊤ ∧ ∃ c, t.call = some c ∧ c.stampNow = st' := by
    rintro st' ⟨⟩
    exact ⟨htop, _, rfl, rfl⟩
  have hopen : Ledger.Step (ledgerOf s cells loose) ((ledgerOf t cells loose).take st) :=
    .call _ st hbatch
  obtain ⟨q', hq', hrep, -, hsame⟩ := detachLessEq_spec hset.rep htop
  rw [handleEvents]
  by_cases hempty : s.queue.isEmpty = true
  · obtain rfl := (isEmpty_iff hset).mp hempty
    refine ⟨{ t with returned := 0 }, [], [], ?_, ⟨?_, ?_⟩, fun _ => ?_⟩
    · simp only [hempty, if_true]
      rfl
    · exact hpc ▸ ⟨rfl, hset⟩
    · exact fun st' hst' => absurd (hpc ▸ hst') (by simp [Pc.stampNow])
    · have hl : ledgerOf { t with returned := 0 } [] [] = (ledgerOf t [] loose).take st := by
        simp [ledgerOf, Ledger.take, batchOf, t, hpc]
      rw [hl]
      exact hopen
  · simp only [hempty, Bool.false_eq_true, if_false, ← hst, hq', Option.bind_eq_bind,
      Option.bind_some]
    cases hu : upTo st cells with
    | nil =>
      -- Nothing has expired: the first round returns early, and the second finds nothing.
      rw [hsame hu]
      obtain ⟨q'', hq'', hset''⟩ := popExpired_spec hset st htop 0 t
      refine ⟨_, beyond st cells, [], hq'', ⟨⟨rfl, hset''⟩, hcall⟩, fun _ => ?_⟩
      rw [ledgerOf_taken t loose (batchOf_popped st 0)]
      exact hopen
    | cons c l =>
      rw [← hu]
      refine ⟨{ t with queue := q', pc := .sweep st (some c.addr) 0 }, beyond st cells,
        upTo st cells, ?_, ⟨⟨?_, hrep⟩, hcall⟩, fun _ => ?_⟩
      · rw [hu]
        rfl
      · rw [hu]
        rfl
      · rw [ledgerOf_taken t loose rfl]
        exact hopen

lemma resume_simulates (h : Tracks s cells loose) (ha : Enabled s .resume) :
    Simulates s cells loose (resume s) True := by
  obtain ⟨clock, queue, pc, returned, made, resumed, call⟩ := s
  obtain ⟨hshape, hcall⟩ := h
  cases pc with
  | sweep st cur sz =>
    obtain ⟨rfl, hrep⟩ := hshape
    cases loose with
    | nil => exact ha.elim
    | cons c l =>
      have hrep' : Rep queue cells (c :: l) (sz + 1 + l.length) := by
        rwa [List.length_cons, Nat.add_comm l.length 1, ← Nat.add_assoc] at hrep
      obtain ⟨nd, hnd, hv, hnext⟩ := hrep'.read_loose
      obtain ⟨htop, cr, rfl, hcr⟩ := hcall st rfl
      refine ⟨⟨clock, queue, .inSweep st c.addr (l.head?.map Cell.addr) (sz + 1), returned, made,
        resumed ++ [(idOf c, st)], some cr⟩, cells, c :: l, ?_,
        ⟨⟨c, l, rfl, rfl, rfl, hrep'⟩, fun st' hst' => by cases hst'; exact hcall st rfl⟩,
        fun _ => ?_⟩
      · simp only [resume, List.head?_cons, Option.map_some, hnext, hnd, hv,
          Option.bind_eq_bind, Option.bind_some]
        rfl
      · subst hcr
        exact .resume _ rfl rfl
  | drain st ts sz =>
    cases ts with
    | nil => exact ha.elim
    | cons t ts =>
      obtain ⟨htop, cr, rfl, hcr⟩ := hcall st rfl
      refine ⟨_, cells, loose, rfl, ⟨hshape, fun st' hst' => by cases hst'; exact hcall st rfl⟩,
        fun _ => ?_⟩
      subst hcr
      exact .resume _ rfl rfl
  | idle => exact ha.elim
  | inSweep _ _ _ _ => exact ha.elim
  | inDrain _ _ _ => exact ha.elim

lemma suspend_simulates (h : Tracks s cells loose) (ha : Enabled s .suspend) :
    Simulates s cells loose (suspend s) True := by
  obtain ⟨clock, queue, pc, returned, made, resumed, call⟩ := s
  obtain ⟨hshape, hcall⟩ := h
  cases pc with
  | inSweep st cur next sz =>
    obtain ⟨c, l, rfl, rfl, rfl, hrep⟩ := hshape
    obtain ⟨q', hq', hrep'⟩ := hrep.deallocate_loose
    refine ⟨⟨clock, q', .sweep st (l.head?.map Cell.addr) sz, returned, made, resumed, call⟩,
      cells, l, ?_, ⟨⟨rfl, hrep'⟩, hcall⟩, fun _ => .stay _⟩
    simp only [suspend, hq', Option.bind_eq_bind, Option.bind_some]
  | inDrain st ts sz => exact ⟨_, cells, loose, rfl, ⟨hshape, hcall⟩, fun _ => .stay _⟩
  | idle => exact absurd rfl ha.2
  | sweep _ _ _ => exact absurd ha.1 (by simp [Pc.InProgram])
  | drain _ _ _ => exact absurd ha.1 (by simp [Pc.InProgram])

lemma finish_simulates (h : Tracks s cells loose) (ha : Enabled s .finish) :
    Simulates s cells loose (finish s) True := by
  obtain ⟨clock, queue, pc, returned, made, resumed, call⟩ := s
  obtain ⟨hshape, hcall⟩ := h
  cases pc with
  | sweep st cur sz =>
    obtain ⟨rfl, hrep⟩ := hshape
    cases loose with
    | cons c l => exact ha.elim
    | nil =>
      obtain ⟨htop, cr, rfl, rfl⟩ := hcall st rfl
      have hset : Settled (queue.finishSweep sz) cells := by
        have hfin := Rep.finishSweep 0 sz (by simpa using hrep)
        exact ⟨hfin.1, hfin.2⟩
      obtain ⟨q', hq', hset'⟩ := popExpired_spec hset cr.stampNow htop sz
        ⟨clock, queue, .sweep cr.stampNow none sz, returned, made, resumed, some cr⟩
      refine ⟨_, beyond cr.stampNow cells, [], hq', ⟨⟨rfl, hset'⟩, hcall⟩, fun _ => ?_⟩
      rw [ledgerOf_taken ⟨clock, queue, .sweep cr.stampNow none sz, returned, made, resumed,
        some cr⟩ [] (batchOf_popped cr.stampNow sz)]
      exact .again _ rfl rfl
  | drain st ts sz =>
    cases ts with
    | cons t ts => exact ha.elim
    | nil =>
      exact ⟨_, cells, loose, rfl, ⟨hshape, fun _ hst => by cases hst⟩, fun _ => .stay _⟩
  | idle => exact ha.elim
  | inSweep _ _ _ _ => exact ha.elim
  | inDrain _ _ _ => exact ha.elim

/-- **Refinement, one step.**  An action that can be taken succeeds, keeps the queue in the
shape its position asks for, and is a step of the ledger. -/
theorem step_tracks (h : Tracks s cells loose) {a : Action} (ha : Enabled s a) :
    Simulates s cells loose (step s a) (NoOverflow s a) := by
  cases a with
  | tick ns =>
    refine ⟨_, cells, loose, dif_pos ha, ⟨h.shape, h.call⟩, fun _ => .stay _⟩
  | addEvent cont timeout level =>
    rw [step, if_pos (show s.pc.InProgram = true from ha)]
    exact addEvent_simulates h cont timeout level
  | handleEvents =>
    rw [step, if_pos (show s.pc = .idle from ha)]
    exact handleEvents_simulates h ha
  | resume => exact resume_simulates h ha
  | suspend => exact suspend_simulates h ha
  | finish => exact finish_simulates h ha

/-- An action that is taken could be. -/
lemma enabled_of_step {a : Action} (h : step s a = some s') : Enabled s a := by
  cases a with
  | tick ns =>
    simp only [step] at h
    split at h
    · next hlt => exact hlt
    · cases h
  | addEvent cont timeout level =>
    simp only [step] at h
    split at h
    · next hpc => exact hpc
    · cases h
  | handleEvents =>
    simp only [step] at h
    split at h
    · next hpc => exact hpc
    · cases h
  | resume =>
    simp only [step, resume] at h
    split at h
    · next hpc => simp only [Enabled, hpc]
    · next hpc => simp only [Enabled, hpc]
    · cases h
  | suspend =>
    simp only [step, suspend] at h
    split at h
    · next hpc => simp [Enabled, hpc, Pc.InProgram]
    · next hpc => simp [Enabled, hpc, Pc.InProgram]
    · cases h
  | finish =>
    simp only [step, finish] at h
    split at h
    · next hpc => simp only [Enabled, hpc]
    · next hpc => simp only [Enabled, hpc]
    · cases h

/-- What a step leads to. -/
lemma Tracks.step (h : Tracks s cells loose) {a : Action} (hs : Timer.step s a = some s') :
    ∃ cells' loose', Tracks s' cells' loose' ∧
      (NoOverflow s a → Ledger.Step (ledgerOf s cells loose) (ledgerOf s' cells' loose')) := by
  obtain ⟨t, cells', loose', ht, htracks, hstep⟩ := step_tracks h (enabled_of_step hs)
  obtain rfl : t = s' := Option.some_inj.mp (ht.symm.trans hs)
  exact ⟨cells', loose', htracks, hstep⟩

/-! ## The next expiration -/

/-- `begin()` of a queue that is not empty is its first cell. -/
lemma begin_spec {c : QueueCell} {extra : ℕ} (h : Rep q (c :: cells) loose extra) :
    ∃ nd, q.begin = some (some c.addr) ∧ q.mem c.addr = some nd ∧ nd.key = c.key := by
  have hc : c ∈ c :: cells ++ loose := List.mem_cons_self ..
  obtain ⟨nd, hnd, hk, -, -⟩ := mem_of_shape (h.cell c hc)
  have hnext := next_of_link (h.lane 0 (by decide)).next
  rw [h.lane_zero] at hnext
  exact ⟨nd, hnext, hnd, hk⟩

lemma getNextExpiration_spec {c : QueueCell} {extra : ℕ}
    (h : Rep s.queue (c :: cells) loose extra) :
    getNextExpiration s = some (makeTimespec
      (max (Long.wrap 0) (Long.wrap (c.key.1 - (stamp s.clock).1)))) := by
  obtain ⟨nd, hbegin, hnd, hk⟩ := begin_spec h
  simp only [getNextExpiration, hbegin, hnd, hk, Option.bind_eq_bind, Option.bind_some]

/-- A registration between calls. -/
lemma addEvent_settled (h : Settled s.queue cells) (cont : Handle) (timeout : Long)
    (level : Level) :
    ∃ s', addEvent s cont timeout level = some s' ∧
      Settled s'.queue (inserted cells ⟨s.queue.unused,
        Long.wrap ((stamp s.clock).1 + timeout.1), ⟨cont, s.made.length⟩, level.1⟩) := by
  obtain ⟨q', hq', hrep, htight⟩ := emplace_spec h.rep
    (Long.wrap ((stamp s.clock).1 + timeout.1)) ⟨cont, s.made.length⟩ level
  refine ⟨{ s with queue := q', made := s.made ++ [(stamp s.clock).1 + timeout.1] }, ?_, hrep,
    htight h.tight⟩
  simp only [addEvent, hq', Option.bind_eq_bind, Option.bind_some]

lemma addEvent_frame {cont : Handle} {timeout : Long} {level : Level}
    (h : addEvent s cont timeout level = some s') : s'.pc = s.pc ∧ s'.clock = s.clock := by
  simp only [addEvent, Option.bind_eq_bind, Option.bind_eq_some_iff] at h
  obtain ⟨⟨q, p⟩, -, h⟩ := h
  rw [← Option.some_inj.mp h]
  exact ⟨rfl, rfl⟩

lemma tick_frame {ns : ℕ} (h : step s (.tick ns) = some s') :
    s'.pc = s.pc ∧ s'.queue = s.queue := by
  simp only [step] at h
  split at h
  · rw [← Option.some_inj.mp h]
    exact ⟨rfl, rfl⟩
  · cases h

end Coring.Timer
