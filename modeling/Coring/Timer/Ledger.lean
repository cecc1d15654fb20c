import Coring.Framework.Ordered
import Coring.Timer.Basic
import Mathlib.Data.List.Perm.Basic
import Mathlib.Data.List.Range

/-!
# The ledger of registrations

What a timer does with its registrations, without the skip list: they wait in a list ordered
by their wakeup points; a call takes the expired front part out of it, as a batch, and resumes
the batch one by one; once the batch is empty the call may take another one, of what has
expired in the meantime.  `Ledger.Good` is the account kept of it: every registration made is
resumed, in the batch or waiting, in one place and once; what is resumed has expired; what had
been registered before the call and is still waiting has not.

The order in which a call resumes is carried by one sequence, the registrations it has resumed
followed by its batch.  A resumption does not change the sequence and a second batch only adds
registrations made during the call to its end, so that the registrations older than the call
stay in the order in which the first batch was taken.
-/

namespace Coring.Timer

structure Ledger where
  /-- The waiting registrations, with their keys. -/
  queued : List (Long × ℕ)
  /-- Those the call in progress has taken out and not yet resumed. -/
  batch : List ℕ
  made : List ℤ
  resumed : List (ℕ × Long)
  call : Option CallRecord

namespace Ledger

/-- The wakeup point of a registration. -/
def wakeup (L : Ledger) (id : ℕ) : ℤ := L.made.getD id 0

/-- A registration is put before the waiting ones whose keys are not less. -/
def register (L : Ledger) (key : Long) (w : ℤ) : Ledger :=
  { L with
    queued := L.queued.takeWhile (fun e => e.1 < key) ++ (key, L.made.length) ::
      L.queued.dropWhile (fun e => e.1 < key)
    made := L.made ++ [w] }

/-- What has expired is taken out. -/
def take (L : Ledger) (stampNow : Long) : Ledger :=
  { L with
    queued := L.queued.dropWhile fun e => e.1 ≤ stampNow
    batch := (L.queued.takeWhile fun e => e.1 ≤ stampNow).map Prod.snd }

/-- A call is opened. -/
def opened (L : Ledger) (stampNow : Long) : Ledger :=
  { L with call := some ⟨stampNow, L.made.length, L.resumed.length⟩ }

/-- The first of the batch is resumed. -/
def resume (L : Ledger) (stampNow : Long) : Ledger :=
  { L with
    batch := L.batch.tail
    resumed := L.resumed ++ (L.batch.take 1).map fun id => (id, stampNow) }

/-- What the call has resumed, followed by what it will resume. -/
def sequence (L : Ledger) (c : CallRecord) : List ℕ :=
  (L.resumed.drop c.since).map Prod.fst ++ L.batch

/-- The part of the account that concerns the last call. -/
structure GoodCall (L : Ledger) (c : CallRecord) : Prop where
  since : c.since ≤ L.resumed.length
  before : c.before ≤ L.made.length
  batch : ∀ id ∈ L.batch, L.wakeup id ≤ c.stampNow.1
  later : ∀ e ∈ L.queued, e.2 < c.before → c.stampNow < e.1
  ordered : ((L.sequence c).filter (· < c.before)).Pairwise fun i j => L.wakeup i ≤ L.wakeup j

structure Good (L : Ledger) : Prop where
  account : (L.resumed.map Prod.fst ++ (L.batch ++ L.queued.map Prod.snd)).Perm
    (List.range L.made.length)
  key : ∀ e ∈ L.queued, L.wakeup e.2 = e.1.1
  sorted : L.queued.Pairwise fun e f => e.1 ≤ f.1
  due : ∀ r ∈ L.resumed, L.wakeup r.1 ≤ r.2.1
  call : ∀ c, L.call = some c → L.GoodCall c

variable {L : Ledger}

lemma Good.lt_made (h : L.Good) {id : ℕ}
    (hid : id ∈ L.resumed.map Prod.fst ∨ id ∈ L.batch ∨ id ∈ L.queued.map Prod.snd) :
    id < L.made.length := by
  refine List.mem_range.mp (h.account.subset ?_)
  simpa only [List.mem_append] using hid

/-! ## Registering -/

lemma wakeup_register {key : Long} {w : ℤ} {id : ℕ} (hid : id < L.made.length) :
    (L.register key w).wakeup id = L.wakeup id := by
  simp only [wakeup, register, List.getD_eq_getElem?_getD, List.getElem?_append_left hid]

lemma wakeup_register_self (key : Long) (w : ℤ) :
    (L.register key w).wakeup L.made.length = w := by
  simp [wakeup, register]

lemma mem_queued_register {key : Long} {w : ℤ} {e : Long × ℕ}
    (he : e ∈ (L.register key w).queued) : e = (key, L.made.length) ∨ e ∈ L.queued := by
  simp only [register, List.mem_append, List.mem_cons] at he
  rcases he with he | rfl | he
  · exact .inr (List.takeWhile_prefix _ |>.subset he)
  · exact .inl rfl
  · exact .inr (List.dropWhile_suffix _ |>.subset he)

lemma sorted_register (h : L.queued.Pairwise fun e f => e.1 ≤ f.1) (key : Long) (w : ℤ) :
    (L.register key w).queued.Pairwise fun e f => e.1 ≤ f.1 := by
  refine pairwise_append_cons (by rwa [List.takeWhile_append_dropWhile]) ?_ ?_
  · intro e he
    exact (of_decide_eq_true
      (List.mem_takeWhile_imp (p := fun e : Long × ℕ => e.1 < key) he)).le
  · intro e he
    have := dropWhile_eq_false (fun e : Long × ℕ => e.1 < key)
      (fun a b hab hb => by simp only [decide_eq_true_eq] at *; exact hab.trans_lt hb) h e he
    simpa using this

lemma Good.register (h : L.Good) {key : Long} {w : ℤ} (hkey : key.1 = w) :
    (L.register key w).Good := by
  have hold : ∀ {id : ℕ}, id ∈ L.resumed.map Prod.fst ∨ id ∈ L.batch ∨
      id ∈ L.queued.map Prod.snd → (L.register key w).wakeup id = L.wakeup id :=
    fun hid => wakeup_register (h.lt_made hid)
  constructor
  case account =>
    have hp := (h.account.cons L.made.length).trans
      (List.perm_append_singleton L.made.length (List.range L.made.length)).symm
    simp only [Ledger.register, List.length_append, List.length_singleton, List.range_succ]
    refine List.Perm.trans ?_ hp
    have hmid := @List.perm_middle _ L.made.length
      (L.resumed.map Prod.fst ++ (L.batch ++
        (L.queued.takeWhile fun e => e.1 < key).map Prod.snd))
      ((L.queued.dropWhile fun e => e.1 < key).map Prod.snd)
    have hsplit : (L.queued.takeWhile fun e => e.1 < key).map Prod.snd ++
        (L.queued.dropWhile fun e => e.1 < key).map Prod.snd = L.queued.map Prod.snd := by
      rw [← List.map_append, List.takeWhile_append_dropWhile]
    simpa only [List.map_append, List.map_cons, List.append_assoc, hsplit] using hmid
  case key =>
    intro e he
    rcases mem_queued_register he with rfl | he
    · rw [wakeup_register_self, hkey]
    · rw [hold (.inr (.inr (List.mem_map_of_mem he))), h.key e he]
  case sorted => exact sorted_register h.sorted key w
  case due =>
    intro r hr
    rw [hold (.inl (List.mem_map_of_mem hr))]
    exact h.due r hr
  case call =>
    intro c hc
    have g := h.call c hc
    have hseq : ∀ id ∈ L.sequence c, (L.register key w).wakeup id = L.wakeup id := by
      intro id hid
      rcases List.mem_append.mp hid with hid | hid
      · exact hold (.inl (List.Sublist.subset ((List.drop_sublist _ _).map _) hid))
      · exact hold (.inr (.inl hid))
    refine ⟨g.since, ?_, fun id hid => ?_, fun e he hlt => ?_, ?_⟩
    · have := g.before
      simp only [Ledger.register, List.length_append]
      omega
    · rw [hold (.inr (.inl hid))]
      exact g.batch id hid
    · rcases mem_queued_register he with rfl | he
      · exact absurd hlt (Nat.not_lt.mpr g.before)
      · exact g.later e he hlt
    · refine List.Pairwise.imp_of_mem (fun {i j} hi hj hij => ?_) g.ordered
      rw [hseq i (List.mem_of_mem_filter hi), hseq j (List.mem_of_mem_filter hj)]
      exact hij

/-! ## Taking a batch -/

section Take

variable {stampNow : Long}

lemma le_of_mem_taken {e : Long × ℕ}
    (he : e ∈ L.queued.takeWhile fun e => e.1 ≤ stampNow) : e.1 ≤ stampNow :=
  of_decide_eq_true (List.mem_takeWhile_imp (p := fun e : Long × ℕ => e.1 ≤ stampNow) he)

lemma lt_of_mem_left (h : L.queued.Pairwise fun e f => e.1 ≤ f.1) {e : Long × ℕ}
    (he : e ∈ L.queued.dropWhile fun e => e.1 ≤ stampNow) : stampNow < e.1 := by
  have := dropWhile_eq_false (fun e : Long × ℕ => e.1 ≤ stampNow)
    (fun a b hab hb => by simp only [decide_eq_true_eq] at *; exact hab.trans hb) h e he
  simpa using this

/-- The account is kept when a batch is taken while there is none. -/
lemma Good.take_account (h : L.Good) (hb : L.batch = []) :
    ((L.take stampNow).resumed.map Prod.fst ++ ((L.take stampNow).batch ++
      (L.take stampNow).queued.map Prod.snd)).Perm (List.range L.made.length) := by
  have hp := h.account
  rw [hb, List.nil_append] at hp
  simp only [take]
  rwa [← List.map_append, List.takeWhile_append_dropWhile]

lemma Good.wakeup_taken (h : L.Good) {id : ℕ} (hid : id ∈ (L.take stampNow).batch) :
    L.wakeup id ≤ stampNow.1 := by
  obtain ⟨e, he, rfl⟩ := List.mem_map.mp hid
  rw [h.key e ((List.takeWhile_prefix _).subset he)]
  exact le_of_mem_taken he

lemma Good.mem_left (h : L.Good) {e : Long × ℕ} (he : e ∈ (L.take stampNow).queued) :
    e ∈ L.queued ∧ stampNow < e.1 :=
  ⟨(List.dropWhile_suffix _).subset he, lt_of_mem_left h.sorted he⟩

/-- The first batch of a call. -/
lemma Good.open_take (h : L.Good) (hb : L.batch = []) :
    ((L.opened stampNow).take stampNow).Good := by
  constructor
  case account => exact h.take_account hb
  case key => exact fun e he => h.key e (h.mem_left he).1
  case sorted => exact h.sorted.sublist (List.dropWhile_suffix _).sublist
  case due => exact h.due
  case call =>
    rintro c ⟨⟩
    refine ⟨Nat.le_refl _, Nat.le_refl _, fun id hid => h.wakeup_taken hid,
      fun e he _ => (h.mem_left he).2, ?_⟩
    have hseq : ((L.opened stampNow).take stampNow).sequence
        ⟨stampNow, L.made.length, L.resumed.length⟩
        = (L.queued.takeWhile fun e => e.1 ≤ stampNow).map Prod.snd := by
      simp [sequence, take, opened]
    rw [hseq]
    refine List.Pairwise.sublist List.filter_sublist ?_
    rw [List.pairwise_map]
    refine List.Pairwise.imp_of_mem (fun {e f} he hf hef => ?_)
      (h.sorted.sublist (List.takeWhile_prefix _).sublist)
    have hke := h.key e ((List.takeWhile_prefix _).subset he)
    have hkf := h.key f ((List.takeWhile_prefix _).subset hf)
    change L.wakeup e.2 ≤ L.wakeup f.2
    rw [hke, hkf]
    exact hef

/-- A further batch of the same call: all of it was registered during the call. -/
lemma Good.take_again (h : L.Good) (hb : L.batch = []) {c : CallRecord}
    (hc : L.call = some c) : (L.take c.stampNow).Good := by
  have g := h.call c hc
  constructor
  case account => exact h.take_account hb
  case key => exact fun e he => h.key e (h.mem_left he).1
  case sorted => exact h.sorted.sublist (List.dropWhile_suffix _).sublist
  case due => exact h.due
  case call =>
    intro c' hc'
    obtain rfl : c = c' := Option.some_inj.mp (hc.symm.trans hc')
    refine ⟨g.since, g.before, fun id hid => h.wakeup_taken hid,
      fun e he _ => (h.mem_left he).2, ?_⟩
    have hnew : ((L.take c.stampNow).batch).filter (· < c.before) = [] := by
      rw [List.filter_eq_nil_iff]
      intro id hid hlt
      obtain ⟨e, he, rfl⟩ := List.mem_map.mp hid
      have hlater := g.later e ((List.takeWhile_prefix _).subset he) (of_decide_eq_true hlt)
      exact absurd (le_of_mem_taken he) (not_le.mpr hlater)
    have hord := g.ordered
    rw [sequence, hb, List.append_nil] at hord
    rw [sequence, List.filter_append, hnew, List.append_nil]
    exact hord

end Take

/-! ## Resuming -/

lemma Good.resume (h : L.Good) {c : CallRecord} (hc : L.call = some c) {id : ℕ}
    {rest : List ℕ} (hb : L.batch = id :: rest) : (L.resume c.stampNow).Good := by
  have g := h.call c hc
  have hres : (L.resume c.stampNow).resumed = L.resumed ++ [(id, c.stampNow)] := by
    simp [Ledger.resume, hb]
  have hrest : (L.resume c.stampNow).batch = rest := by
    simp [Ledger.resume, hb]
  constructor
  case account =>
    have hp := h.account
    rw [hb] at hp
    rw [hres, hrest]
    change (_ ++ (rest ++ L.queued.map Prod.snd)).Perm (List.range L.made.length)
    simpa only [List.map_append, List.map_cons, List.map_nil, List.append_assoc,
      List.cons_append, List.nil_append] using hp
  case key => exact h.key
  case sorted => exact h.sorted
  case due =>
    intro r hr
    rw [hres] at hr
    rcases List.mem_append.mp hr with hr | hr
    · exact h.due r hr
    · obtain rfl := List.mem_singleton.mp hr
      exact g.batch id (hb ▸ List.mem_cons_self ..)
  case call =>
    intro c' hc'
    obtain rfl : c = c' := Option.some_inj.mp (hc.symm.trans hc')
    refine ⟨?_, g.before, fun i hi => ?_, g.later, ?_⟩
    · have := g.since
      rw [hres, List.length_append]
      omega
    · rw [hrest] at hi
      exact g.batch i (hb ▸ List.mem_cons_of_mem _ hi)
    · have hseq : (L.resume c.stampNow).sequence c = L.sequence c := by
        rw [sequence, sequence, hres, hrest, hb, List.drop_append_of_le_length g.since]
        simp
      rw [hseq]
      exact g.ordered

/-! ## Steps -/

/-- What can happen to a ledger at a time. -/
inductive Step : Ledger → Ledger → Prop
  | stay (L : Ledger) : Step L L
  | register (L : Ledger) {key : Long} {w : ℤ} (hkey : key.1 = w) : Step L (L.register key w)
  | call (L : Ledger) (stampNow : Long) (hb : L.batch = []) :
      Step L ((L.opened stampNow).take stampNow)
  | again (L : Ledger) {c : CallRecord} (hc : L.call = some c) (hb : L.batch = []) :
      Step L (L.take c.stampNow)
  | resume (L : Ledger) {c : CallRecord} {id : ℕ} {rest : List ℕ} (hc : L.call = some c)
      (hb : L.batch = id :: rest) : Step L (L.resume c.stampNow)

lemma Good.step {L' : Ledger} (h : L.Good) (hs : Step L L') : L'.Good := by
  cases hs with
  | stay => exact h
  | register hkey => exact h.register hkey
  | call stampNow hb => exact h.open_take hb
  | again hc hb => exact h.take_again hb hc
  | resume hc hb => exact h.resume hc hb

end Ledger

end Coring.Timer
