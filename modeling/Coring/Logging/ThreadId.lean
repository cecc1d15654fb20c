import Coring.Logging.AsyncLogger
import Coring.Logging.Timestamp

/-!
# Thread ids in log lines

This file embeds the thread-local part of `include/coring/detail/thread.hpp`: the first call of
`tid` or `tid_string` on a thread prints the id of the thread into memory that is kept, and a log
entry has a pointer to that memory.  `write_pid` copies a fixed number of characters from there.

`LoggedBy` is what an entry has for its thread, whatever calls came before it, and `identified_iff`
when two lines tell their threads apart.
-/

namespace Coring.Logging

/-- A thread id that the kernel assigns. -/
structure Tid where
  val : ℕ
  pos : 0 < val
  le : val ≤ 4194304
  deriving DecidableEq

/-- The thread-local variables; the text is what `t_tid_string_ptr` points to. -/
structure ThreadLocals where
  tCachedTid : ℤ
  tTidString : Option (List Char)
  tTidStringLength : ℤ
  deriving Repr, DecidableEq

namespace ThreadLocals

/-- Their initial values. -/
def init : ThreadLocals := ⟨0, none, 6⟩

/-- `"%5d "`. -/
def tidText (tid : ℤ) : List Char := (intText tid).leftpad 5 ' ' ++ [' ']

variable (gettid : Tid) (mem : List Char) (t : ThreadLocals)

/-- `cache_tid`, with what is in the memory that `new` returns. -/
def cacheTid : ThreadLocals :=
  if t.tCachedTid = 0 then
    let (ptr, w) := snprintf mem 0 32 (tidText gettid.val)
    { tCachedTid := gettid.val, tTidString := some ptr, tTidStringLength := w }
  else t

/-- `tid`. -/
def tid : ThreadLocals × ℤ :=
  let t := if t.tCachedTid = 0 then t.cacheTid gettid mem else t
  (t, t.tCachedTid)

/-- `tid_string`. -/
def tidString : ThreadLocals × Option (List Char) :=
  let t := if t.tCachedTid = 0 then t.cacheTid gettid mem else t
  (t, t.tTidString)

/-- A call on a thread. -/
inductive Call
  | tid (mem : List Char)
  | tidString (mem : List Char)

/-- The calls of the thread with id `gettid`; `new char[32]` returns 32 characters. -/
def machine : Machine ThreadLocals Call where
  step t
    | .tid mem => if mem.length = 32 then some (t.tid gettid mem).1 else none
    | .tidString mem => if mem.length = 32 then some (t.tidString gettid mem).1 else none

end ThreadLocals

variable {τ : Type}

/-- An entry that the thread makes at some point. -/
def LoggedBy (gettid : Tid) (e : LogRingEntry τ) : Prop :=
  ∃ t mem, (ThreadLocals.machine gettid).Reachable .init t ∧ mem.length = 32 ∧
    (t.tidString gettid mem).2 = some e.pidString

/-- What `write_pid` copies. -/
def writePid (e : LogRingEntry τ) : List Char := e.pidString.take Datetime.pidStringLen

/-- What `write_prefix` adds to the writing buffer. -/
def Datetime.writePrefix (D : Datetime τ) (d : D.State) (e : LogRingEntry τ) : List Char :=
  D.timeBuffer d ++ writePid e ++ e.lv.name

/-! ## What an entry has for its thread -/

namespace ThreadLocals

/-- The id has been printed. -/
structure Cached (gettid : Tid) (t : ThreadLocals) : Prop where
  id : t.tCachedTid = gettid.val
  text : ∃ rest, t.tTidString = some (tidText gettid.val ++ rest)

variable {gettid : Tid} {t : ThreadLocals}

lemma length_toDigits_tid (gettid : Tid) : (Nat.toDigits 10 gettid.val).length ≤ 7 := by
  have hle := gettid.le
  exact (Nat.length_toDigits_le_iff (by decide) (by decide)).mpr (by omega)

lemma tidText_natCast (n : ℕ) : tidText n = (Nat.toDigits 10 n).leftpad 5 ' ' ++ [' '] := by
  rw [tidText, intText, if_neg (by omega), Int.natAbs_natCast]

/-- The text fits into the memory. -/
lemma cached_cacheTid (mem : List Char) (h : t.tCachedTid = 0) :
    Cached gettid (t.cacheTid gettid mem) := by
  have hlen : (tidText gettid.val).length ≤ 31 := by
    have := length_toDigits_tid gettid
    rw [tidText_natCast, List.length_append, List.length_leftpad, List.length_singleton]
    omega
  rw [cacheTid, if_pos h]
  refine ⟨rfl, [Char.ofNat 0] ++ mem.drop (0 + ((tidText gettid.val) ++ [Char.ofNat 0]).length), ?_⟩
  simp only [snprintf, List.take_of_length_le hlen, overwrite, List.take_zero, List.nil_append,
    List.append_assoc]

/-- Nothing has been printed yet, or the id has. -/
def Inv (gettid : Tid) (t : ThreadLocals) : Prop := t = init ∨ Cached gettid t

/-- Either call prints the id if that has not been done. -/
lemma Inv.cached (mem : List Char) (h : Inv gettid t) :
    Cached gettid (if t.tCachedTid = 0 then t.cacheTid gettid mem else t) := by
  split
  · next hzero => exact cached_cacheTid mem hzero
  · next hne =>
    obtain rfl | hcached := h
    · exact absurd rfl hne
    · exact hcached

lemma inv_step {c : Call} {t' : ThreadLocals} (h : Inv gettid t)
    (hstep : (machine gettid).step t c = some t') : Inv gettid t' := by
  cases c with
  | tid mem =>
    obtain ⟨-, hnext⟩ := Option.ite_none_right_eq_some.mp hstep
    exact .inr (Option.some_inj.mp hnext ▸ h.cached mem)
  | tidString mem =>
    obtain ⟨-, hnext⟩ := Option.ite_none_right_eq_some.mp hstep
    exact .inr (Option.some_inj.mp hnext ▸ h.cached mem)

lemma inv_reachable (h : (machine gettid).Reachable init t) : Inv gettid t :=
  Machine.Reachable.invariant _ h (.inl rfl) fun _ _ _ => inv_step

end ThreadLocals

open ThreadLocals

variable {a b : Tid} {e e' : LogRingEntry τ}

lemma LoggedBy.pidString (h : LoggedBy a e) : ∃ rest, e.pidString = tidText a.val ++ rest := by
  obtain ⟨t, mem, hreach, -, hstring⟩ := h
  obtain ⟨rest, hrest⟩ := ((inv_reachable hreach).cached mem).text
  exact ⟨rest, Option.some_inj.mp (hstring.symm.trans hrest)⟩

/-! ## Which threads are told apart -/

/-- The id in decimal, right-aligned to five columns, and a space. -/
def tidField (tid : Tid) : List Char := (Nat.toDigits 10 tid.val).leftpad 5 ' ' ++ [' ']

/-- The copy is the whole text of the ids that have at most five digits. -/
lemma LoggedBy.writePid_eq_iff (h : LoggedBy a e) : writePid e = tidField a ↔ a.val < 100000 := by
  have hlen : (tidField a).length = max 5 (Nat.toDigits 10 a.val).length + 1 := by
    rw [tidField, List.length_append, List.length_leftpad, List.length_singleton]
  have hdigits : (Nat.toDigits 10 a.val).length ≤ 5 ↔ a.val < 100000 :=
    Nat.length_toDigits_le_iff (by decide) (by decide)
  obtain ⟨rest, hrest⟩ := h.pidString
  rw [tidText_natCast, ← tidField] at hrest
  constructor
  · intro heq
    have hshort : (writePid e).length ≤ 6 := List.length_take_le ..
    rw [heq] at hshort
    omega
  · intro hlt
    rw [writePid, hrest]
    exact List.take_left' (by rw [Datetime.pidStringLen]; omega)

/-- The id is read back from the digits of the field. -/
lemma tidField_injective : Function.Injective tidField := by
  have hread : ∀ tid, (tidField tid).filter Char.isDigit = Nat.toDigits 10 tid.val := by
    intro tid
    have hall : (Nat.toDigits 10 tid.val).filter Char.isDigit = Nat.toDigits 10 tid.val :=
      List.filter_eq_self.mpr fun _ => Nat.isDigit_of_mem_toDigits (by decide) (by decide)
    rw [tidField, List.leftpad, List.filter_append, List.filter_append, hall,
      List.filter_eq_nil_iff.mpr, List.nil_append]
    · exact List.append_nil _
    · intro c hc
      rw [List.eq_of_mem_replicate hc]
      decide
  intro a b hab
  have hdigits : Nat.toDigits 10 a.val = Nat.toDigits 10 b.val := by rw [← hread, hab, hread]
  have hval : a.val = b.val := by
    rw [← @Nat.ofDigitChars_ten_toDigits a.val, hdigits, Nat.ofDigitChars_ten_toDigits]
  obtain ⟨_, _, _⟩ := a
  subst hval
  rfl

/-- The lines of two entries tell which thread each is from. -/
structure Identified (D : Datetime τ) (d d' : D.State) (a b : Tid) (e e' : LogRingEntry τ) :
    Prop where
  differ : writePid e ≠ writePid e'
  form : D.writePrefix d e = D.timeBuffer d ++ tidField a ++ e.lv.name
  form' : D.writePrefix d' e' = D.timeBuffer d' ++ tidField b ++ e'.lv.name

lemma writePrefix_eq_iff (D : Datetime τ) (d : D.State) :
    D.writePrefix d e = D.timeBuffer d ++ tidField a ++ e.lv.name ↔ writePid e = tidField a := by
  rw [Datetime.writePrefix, List.append_left_inj, List.append_right_inj]

/-- **Log lines identify their threads** exactly while the ids have at most five digits. -/
theorem identified_iff (D : Datetime τ) (d d' : D.State) (hab : a ≠ b) (he : LoggedBy a e)
    (he' : LoggedBy b e') : Identified D d d' a b e e' ↔ a.val < 100000 ∧ b.val < 100000 := by
  rw [← he.writePid_eq_iff, ← he'.writePid_eq_iff]
  constructor
  · intro h
    exact ⟨(writePrefix_eq_iff D d).mp h.form, (writePrefix_eq_iff D d').mp h.form'⟩
  · rintro ⟨hform, hform'⟩
    refine ⟨?_, (writePrefix_eq_iff D d).mpr hform, (writePrefix_eq_iff D d').mpr hform'⟩
    rw [hform, hform']
    exact fun heq => hab (tidField_injective heq)

/-- The first entry of a thread, with zeros in the memory that `new` returns. -/
def firstEntry (gettid : Tid) : LogRingEntry Unit where
  file := "main.cpp".toList
  line := 7
  lv := .info
  ts := ()
  pidString := (ThreadLocals.init.tidString gettid (List.replicate 32 (Char.ofNat 0))).2.getD []
  text := "up".toList

lemma loggedBy_firstEntry (gettid : Tid) : LoggedBy gettid (firstEntry gettid) :=
  ⟨.init, List.replicate 32 (Char.ofNat 0), ⟨[], rfl⟩, rfl, rfl⟩

/-- A logger that prints no time. -/
def noDatetime : Datetime Unit := ⟨Unit, fun _ _ => (), fun _ => []⟩

/-- Two short ids, and the two that end the range of seven digits. -/
def shortTids : Tid × Tid := (⟨7, by decide, by decide⟩, ⟨99999, by decide, by decide⟩)
def longTids : Tid × Tid := (⟨4194300, by decide, by decide⟩, ⟨4194304, by decide, by decide⟩)

theorem identified_five_digits : Identified noDatetime () () shortTids.1 shortTids.2
    (firstEntry shortTids.1) (firstEntry shortTids.2) :=
  (identified_iff noDatetime () () (by decide) (loggedBy_firstEntry _)
    (loggedBy_firstEntry _)).mpr (by decide)

/-- Threads 4194300 and 4194304 write the same prefix. -/
theorem not_identified_seven_digits :
    longTids.1 ≠ longTids.2 ∧ LoggedBy longTids.1 (firstEntry longTids.1) ∧
    LoggedBy longTids.2 (firstEntry longTids.2) ∧
    noDatetime.writePrefix () (firstEntry longTids.1) = "419430INFO ".toList ∧
    noDatetime.writePrefix () (firstEntry longTids.2) = "419430INFO ".toList ∧
    ¬ Identified noDatetime () () longTids.1 longTids.2 (firstEntry longTids.1)
      (firstEntry longTids.2) := by
  have hsame : writePid (firstEntry longTids.1) = writePid (firstEntry longTids.2) := by decide
  exact ⟨by decide, loggedBy_firstEntry _, loggedBy_firstEntry _, by decide, by decide,
    fun h => h.differ hsame⟩

end Coring.Logging
