import ForgeDB.Data.Checked
import ForgeDB.Raft.Contiguous

/-!
The log as the one slice that the source keeps, with every access to it checked. As long as the slice has its
slot zero, all of the methods stay inside it and do what they do to the log of words; a range must not end below
the boundary.
-/

namespace ForgeDB.Raft.Words

open Checked

structure RawLog where
  entries : Slice LogEntry
  deriving DecidableEq, Repr

def newLog : RawLog := ⟨Slice.single ⟨0, 0, []⟩⟩

namespace RawLog

def lastIndex (l : RawLog) : Checked UInt64 := do
  let first ← l.entries.get 0
  return first.index + l.entries.len - 1

def lastTerm (l : RawLog) : Checked UInt64 := do
  let last ← l.entries.get (l.entries.items.length - 1)
  return last.term

def termAt (l : RawLog) (index : UInt64) : Checked (Option UInt64) := do
  let first ← l.entries.get 0
  let base := first.index
  if index < base then return none
  else
    let offset := index - base
    if l.entries.len ≤ offset then return none
    else
      let entry ← l.entries.get offset.toNat
      return some entry.term

def append (l : RawLog) (e : LogEntry) : Checked (RawLog × UInt64) := do
  let first ← l.entries.get 0
  let index := first.index + l.entries.len
  let entries ← l.entries.append (.single { e with index := index })
  return (⟨entries⟩, index)

def slice (l : RawLog) (start : UInt64) : Checked (Slice LogEntry) := do
  let first ← l.entries.get 0
  let base := first.index
  let start := if start ≤ base then base + 1 else start
  let offset := start - base
  if l.entries.len ≤ offset then return .empty
  else
    let out ← Slice.make default (l.entries.len - offset)
    let kept ← l.entries.startingAt offset.toNat
    return out.copy kept

def range (l : RawLog) (start last : UInt64) : Checked (Slice LogEntry) := do
  let first ← l.entries.get 0
  let base := first.index
  let start := if start ≤ base then base + 1 else start
  let lastIdx ← l.lastIndex
  let last := if lastIdx < last then lastIdx else last
  if last < start then return .empty
  else
    let startOff := start - base
    let lastOff := last - base
    let out ← Slice.make default (lastOff - startOff + 1)
    let kept ← l.entries.window startOff.toNat (lastOff + 1).toNat
    return out.copy kept

def appendFrom (l : RawLog) (startIdx : UInt64) : List LogEntry → Checked RawLog
  | [] => return l
  | e :: more => do
    let entries ← l.entries.append (.single { e with index := startIdx })
    appendFrom ⟨entries⟩ (startIdx + 1) more

def appendAfterFrom (l : RawLog) (base idx : UInt64) : List LogEntry → Checked (RawLog × Bool)
  | [] => return (l, false)
  | e :: more =>
    let offset := idx - base
    if offset < l.entries.len then do
      let own ← l.entries.get offset.toNat
      if own.term = e.term then appendAfterFrom l base (idx + 1) more
      else
        let kept ← l.entries.upTo offset.toNat
        let l ← appendFrom ⟨kept⟩ idx (e :: more)
        return (l, true)
    else do
      let l ← l.appendFrom idx (e :: more)
      return (l, true)

def appendAfter (l : RawLog) (prevIndex : UInt64) (newEntries : Slice LogEntry) : Checked (RawLog × Bool) := do
  let first ← l.entries.get 0
  l.appendAfterFrom first.index (prevIndex + 1) newEntries.items

/-- A new slice that starts at the boundary, with what the log has behind it. -/
def rebased (l : RawLog) (index term : UInt64) : Checked RawLog := do
  let first ← l.entries.get 0
  let offset := index - first.index
  let _ ← Slice.make (default : LogEntry) (l.entries.len - offset)
  let kept ← l.entries.startingAt (offset + 1).toNat
  let entries ← (Slice.single ⟨index, term, []⟩).append kept
  return ⟨entries⟩

def compact (l : RawLog) (index : UInt64) : Checked (Option RawLog) := do
  match ← l.termAt index with
  | none => return none
  | some term =>
    let l ← l.rebased index term
    return some l

def installSnapshotBoundary (l : RawLog) (lastIncludedIndex lastIncludedTerm : UInt64) : Checked RawLog := do
  if (← l.termAt lastIncludedIndex) = some lastIncludedTerm then l.rebased lastIncludedIndex lastIncludedTerm
  else return ⟨.single ⟨lastIncludedIndex, lastIncludedTerm, []⟩⟩

theorem toNat_succ {offset : UInt64} (inside : offset.toNat < 2 ^ 63) : (offset + 1).toNat = offset.toNat + 1 := by
  rw [UInt64.toNat_add, UInt64.toNat_one]
  exact Nat.mod_eq_of_lt (by omega)

def Shows (r : RawLog) (l : Log) : Prop := r.entries.items = l.entries

namespace Shows

variable {r : RawLog} {l : Log}

section

variable (shows' : r.Shows l)

include shows'

theorem unique {k : Log} (other : r.Shows k) : l = k := by
  have same : l.entries = k.entries := shows'.symm.trans other
  obtain ⟨sentinel, rest⟩ := l
  obtain ⟨sentinel', rest'⟩ := k
  cases same
  rfl

theorem get {slot : Nat} {e : LogEntry} (found : l.entries[slot]? = some e) :
    r.entries.get slot = .ok e := Slice.get_eq (by rwa [shows'])

theorem first : r.entries.get 0 = .ok l.sentinel := shows'.get rfl

theorem length : r.entries.items.length = l.rest.length + 1 := congrArg List.length shows'

theorem len : r.entries.len = UInt64.ofNat l.entries.length := by
  rw [Slice.len, shows']

theorem fits : l.rest.length + 1 < 2 ^ 63 := shows'.length ▸ r.entries.fits

theorem len_le_iff (offset : UInt64) : r.entries.len ≤ offset ↔ l.entries.length ≤ offset.toNat := by
  rw [UInt64.le_iff_toNat_le, Slice.toNat_len, shows']

theorem lastIndex : r.lastIndex = .ok l.lastIndex := by
  simp only [RawLog.lastIndex, shows'.first, shows'.len, ok_bind]
  rfl

theorem lastTerm : r.lastTerm = .ok l.lastTerm := by
  have last : l.entries[r.entries.items.length - 1]? = some (l.entries.getLastD l.sentinel) := by
    rw [shows', ← List.getLast?_eq_getElem?]
    simp only [Log.entries, List.getLastD_eq_getLast?, List.getLast?_cons, Option.getD_some]
  simp only [RawLog.lastTerm, shows'.get last, ok_bind]
  rfl

theorem termAt (index : UInt64) : r.termAt index = .ok (l.termAt index) := by
  simp only [RawLog.termAt, shows'.first, Log.termAt, ok_bind, shows'.len_le_iff]
  by_cases below : index < l.sentinel.index
  · simp only [if_pos below]
    rfl
  · rw [if_neg below, if_neg below]
    by_cases beyond : l.entries.length ≤ (index - l.sentinel.index).toNat
    · rw [if_pos beyond, List.getElem?_eq_none beyond]
      rfl
    · have inside := List.getElem?_eq_getElem (Nat.lt_of_not_le beyond)
      rw [if_neg beyond, inside, shows'.get inside]
      rfl

theorem slice (start : UInt64) : ∃ part, r.slice start = .ok part ∧ part.items = l.slice start := by
  simp only [RawLog.slice, shows'.first, ok_bind, shows'.len_le_iff, Log.slice]
  generalize (if start ≤ l.sentinel.index then l.sentinel.index + 1 else start) - l.sentinel.index = offset
  by_cases beyond : l.entries.length ≤ offset.toNat
  · rw [if_pos beyond, List.drop_eq_nil_of_le beyond]
    exact ⟨_, rfl, rfl⟩
  · rw [if_neg beyond]
    have inside : offset.toNat ≤ r.entries.items.length := by
      rw [shows']
      omega
    obtain ⟨kept, cut, items⟩ := Slice.startingAt_eq inside
    have length : (r.entries.len - offset).toNat = kept.items.length := by
      rw [UInt64.toNat_sub_of_le _ _ (by rwa [UInt64.le_iff_toNat_le, Slice.toNat_len]), Slice.toNat_len, items,
        List.length_drop]
    obtain ⟨out, made, copied⟩ := Slice.make_copy default length
    refine ⟨kept, ?_, by rw [items, shows']⟩
    simp only [made, cut, ok_bind, copied]
    rfl

theorem lastOff_lt {last : UInt64} (above : l.sentinel.index ≤ last) :
    ((if l.lastIndex < last then l.lastIndex else last) - l.sentinel.index).toNat < l.entries.length := by
  have fits := shows'.fits
  have end_ : (l.lastIndex - l.sentinel.index).toNat = l.rest.length := by
    have moved : l.lastIndex - l.sentinel.index = UInt64.ofNat l.rest.length := by
      rw [Log.lastIndex, Log.entries, List.length_cons, UInt64.ofNat_add, ← UInt64.add_assoc]
      have cancel : l.sentinel.index + UInt64.ofNat l.rest.length + UInt64.ofNat 1 - 1 =
          l.sentinel.index + UInt64.ofNat l.rest.length := UInt64.add_sub_cancel ..
      rw [cancel, UInt64.add_comm, UInt64.add_sub_cancel]
    rw [moved, UInt64.toNat_ofNat', Nat.mod_eq_of_lt (by omega)]
  have length : l.entries.length = l.rest.length + 1 := rfl
  split
  · omega
  · rename_i within
    have upper := UInt64.le_iff_toNat_le.mp (UInt64.not_lt.mp within)
    have lower := UInt64.le_iff_toNat_le.mp above
    rw [UInt64.toNat_sub_of_le _ _ (UInt64.le_iff_toNat_le.mpr (Nat.le_trans lower upper))] at end_
    rw [UInt64.toNat_sub_of_le _ _ above]
    omega

end

theorem startOff_le {base start last : UInt64} (ordered : ¬last < if start ≤ base then base + 1 else start) :
    ((if start ≤ base then base + 1 else start) - base).toNat ≤ (last - base).toNat + 1 := by
  split
  · rw [UInt64.add_comm, UInt64.add_sub_cancel]
    exact Nat.le_add_left ..
  · rename_i above
    rw [if_neg above] at ordered
    have low := UInt64.lt_iff_toNat_lt.mp (UInt64.not_le.mp above)
    have high := UInt64.le_iff_toNat_le.mp (UInt64.not_lt.mp ordered)
    rw [UInt64.toNat_sub_of_le _ _ (UInt64.le_of_lt (UInt64.not_le.mp above)),
      UInt64.toNat_sub_of_le _ _ (UInt64.le_iff_toNat_le.mpr (by omega))]
    omega

theorem range (shows' : r.Shows l) (start : UInt64) {last : UInt64} (above : l.sentinel.index ≤ last) :
    ∃ part, r.range start last = .ok part ∧ part.items = l.range start last := by
  have fits := shows'.fits
  have inside := shows'.lastOff_lt above
  simp only [RawLog.range, shows'.first, shows'.lastIndex, ok_bind, Log.range]
  generalize (if l.lastIndex < last then l.lastIndex else last) = last at inside ⊢
  by_cases empty : last < if start ≤ l.sentinel.index then l.sentinel.index + 1 else start
  · rw [if_pos empty, if_pos empty]
    exact ⟨_, rfl, rfl⟩
  · have ordered := startOff_le empty
    rw [if_neg empty, if_neg empty]
    generalize (if start ≤ l.sentinel.index then l.sentinel.index + 1 else start) - l.sentinel.index =
      startOff at ordered ⊢
    generalize last - l.sentinel.index = lastOff at ordered inside ⊢
    have length : l.entries.length = l.rest.length + 1 := rfl
    have next := toNat_succ (show lastOff.toNat < 2 ^ 63 by omega)
    have within : (lastOff + 1).toNat ≤ r.entries.items.length := by
      rw [next, shows']
      exact inside
    obtain ⟨kept, cut, items⟩ := Slice.window_eq (next ▸ ordered) within
    have size : (lastOff - startOff + 1).toNat = kept.items.length := by
      have moved : lastOff - startOff + 1 = lastOff + 1 - startOff := by
        rw [UInt64.sub_eq_add_neg, UInt64.sub_eq_add_neg, UInt64.add_assoc, UInt64.add_comm (-startOff),
          UInt64.add_assoc]
      rw [moved, UInt64.toNat_sub_of_le _ _ (by rwa [UInt64.le_iff_toNat_le, next]), items, List.length_drop,
        List.length_take_of_le within]
    obtain ⟨out, made, copied⟩ := Slice.make_copy default size
    refine ⟨kept, ?_, ?_⟩
    · simp only [made, cut, ok_bind, copied]
      rfl
    · rw [items, List.drop_take, next, shows']

theorem append (shows' : r.Shows l) (e : LogEntry) :
    Safe (r.entries.items.length + 1 < 2 ^ 63)
      (fun result => result.1.Shows (l.append e).1 ∧ result.2 = (l.append e).2) (r.append e) := by
  simp only [RawLog.append, shows'.first, ok_bind]
  refine (Slice.append_safe _ _).bind fun entries items => ?_
  refine ⟨?_, by rw [shows'.len]; rfl⟩
  rw [RawLog.Shows, items, shows', shows'.len]
  rfl

end Shows

theorem renumber_cons (startIdx : UInt64) (e : LogEntry) (more : List LogEntry) :
    Log.renumber startIdx (e :: more) = { e with index := startIdx } :: Log.renumber (startIdx + 1) more := by
  apply List.ext_getElem?
  intro i
  cases i with
  | zero =>
    have start : startIdx + UInt64.ofNat 0 = startIdx := UInt64.add_zero startIdx
    simp only [Log.renumber_getElem?, List.getElem?_cons_zero, Option.map_some, start]
  | succ i =>
    simp only [Log.renumber_getElem?, List.getElem?_cons_succ, UInt64.add_assoc, UInt64.ofNat_add, UInt64.ofNat_one,
      UInt64.add_comm 1]

theorem appendFrom_safe (r : RawLog) (startIdx : UInt64) (entries : List LogEntry) :
    Safe (r.entries.items.length + entries.length < 2 ^ 63)
      (fun after => after.entries.items = r.entries.items ++ Log.renumber startIdx entries)
      (r.appendFrom startIdx entries) := by
  induction entries generalizing r startIdx with
  | nil => exact (List.append_nil _).symm
  | cons e more ih =>
    refine Safe.bind ((Slice.append_safe _ _).mono (fun room => ?_) fun _ items => items) fun longer items => ?_
    · simp only [Slice.single, List.length_cons, List.length_nil] at room ⊢
      omega
    · refine (ih ⟨longer⟩ (startIdx + 1)).mono (fun room => ?_) fun after rest => ?_
      · rw [items]
        simp only [Slice.single, List.length_append, List.length_cons, List.length_nil] at room ⊢
        omega
      · rw [rest, items, renumber_cons, List.append_assoc]
        rfl

namespace Shows

variable {r : RawLog} {l : Log}

theorem appendAfterFrom (shows' : r.Shows l) {idx : UInt64} {slot : Nat} (newEntries : List LogEntry)
    (here : (idx - l.sentinel.index).toNat = slot) (behind : 0 < slot) (reach : slot ≤ l.entries.length)
    (room : slot + newEntries.length < 2 ^ 64) :
    Safe (r.entries.items.length + newEntries.length < 2 ^ 63)
      (fun result => result.1.Shows (l.appendAfterFrom idx newEntries).1 ∧
        result.2 = (l.appendAfterFrom idx newEntries).2 ∧
        result.1.entries.items.length ≤ r.entries.items.length + newEntries.length)
      (r.appendAfterFrom l.sentinel.index idx newEntries) := by
  induction newEntries generalizing idx slot with
  | nil => exact ⟨shows', rfl, Nat.le_refl _⟩
  | cons e more ih =>
    rw [List.length_cons] at room ⊢
    have bound : idx - l.sentinel.index < r.entries.len ↔ slot < l.entries.length := by
      rw [UInt64.lt_iff_toNat_lt, Slice.toNat_len, shows', here]
    unfold RawLog.appendAfterFrom Log.appendAfterFrom
    cases present : l.entries[slot]? with
    | none =>
      have beyond : ¬slot < l.entries.length := Nat.not_lt.mpr (List.getElem?_eq_none_iff.mp present)
      simp only [here, present, bound, if_neg beyond]
      refine (r.appendFrom_safe idx (e :: more)).bind fun after items => ⟨?_, rfl, ?_⟩
      · rw [RawLog.Shows, items, shows']
        rfl
      · rw [items, List.length_append, Log.renumber_length, List.length_cons]
    | some own =>
      have inside : slot < l.entries.length := (List.getElem?_eq_some_iff.mp present).1
      simp only [here, present, bound, if_pos inside, shows'.get present, ok_bind]
      by_cases same : own.term = e.term
      · simp only [if_pos same]
        refine (ih (Log.toNat_succ_sub here (by omega)) (Nat.succ_pos slot) inside (by omega)).mono (by omega) ?_
        rintro result ⟨shown, changed, size⟩
        exact ⟨shown, changed, by omega⟩
      · simp only [if_neg same]
        have within : slot ≤ r.entries.items.length := by
          rw [shows']
          exact reach
        obtain ⟨kept, cut, items⟩ := Slice.upTo_eq within
        have short : kept.items.length = slot := by rw [items, List.length_take_of_le within]
        rw [cut, ok_bind]
        refine ((RawLog.mk kept).appendFrom_safe idx (e :: more)).mono (fun enough => ?_) (fun _ shape => shape) |>.bind
          fun after shape => ⟨?_, rfl, ?_⟩
        · rw [List.length_cons, short]
          omega
        · obtain ⟨before, rfl⟩ : ∃ before, slot = before + 1 := ⟨slot - 1, by omega⟩
          rw [RawLog.Shows, shape, items, shows']
          rfl
        · rw [shape, List.length_append, Log.renumber_length, List.length_cons, short]
          omega

theorem appendAfter (shows' : r.Shows l) {prevIndex : UInt64} (present : (l.termAt prevIndex).isSome = true)
    (newEntries : Slice LogEntry) :
    Safe (r.entries.items.length + newEntries.items.length < 2 ^ 63)
      (fun result => result.1.Shows (l.appendAfter prevIndex newEntries.items).1 ∧
        result.2 = (l.appendAfter prevIndex newEntries.items).2 ∧
        result.1.entries.items.length ≤ r.entries.items.length + newEntries.items.length)
      (r.appendAfter prevIndex newEntries) := by
  have inside := (Log.termAt_slot present).2
  have fits := shows'.fits
  have few := newEntries.fits
  have length : l.entries.length = l.rest.length + 1 := rfl
  simp only [RawLog.appendAfter, shows'.first, ok_bind]
  exact shows'.appendAfterFrom newEntries.items (Log.toNat_succ_sub rfl (by omega)) (Nat.succ_pos _) inside (by omega)

theorem rebased (shows' : r.Shows l) {index : UInt64} (present : (l.termAt index).isSome = true) (term : UInt64) :
    ∃ after, r.rebased index term = .ok after ∧
      after.Shows ⟨⟨index, term, []⟩, l.entries.drop ((index - l.sentinel.index).toNat + 1)⟩ ∧
      after.entries.items.length ≤ r.entries.items.length := by
  have inside := (Log.termAt_slot present).2
  have fits := shows'.fits
  have size : r.entries.items.length = l.entries.length := congrArg List.length shows'
  have length : l.entries.length = l.rest.length + 1 := rfl
  simp only [RawLog.rebased, shows'.first, ok_bind]
  generalize index - l.sentinel.index = offset at inside ⊢
  have next := toNat_succ (show offset.toNat < 2 ^ 63 by omega)
  have reached : (offset + 1).toNat ≤ r.entries.items.length := by omega
  obtain ⟨kept, cut, items⟩ := Slice.startingAt_eq reached
  have capacity : (r.entries.len - offset).toNat < 2 ^ 63 := by
    rw [UInt64.toNat_sub_of_le _ _ (UInt64.le_iff_toNat_le.mpr (by rw [Slice.toNat_len]; omega)), Slice.toNat_len]
    omega
  have rest : kept.items.length = r.entries.items.length - (offset.toNat + 1) := by rw [items, List.length_drop, next]
  obtain ⟨entries, joined, all⟩ := (Slice.append_safe (Slice.single ⟨index, term, []⟩) kept).result (by
    simp only [Slice.single, List.length_singleton]
    omega)
  refine ⟨⟨entries⟩, ?_, ?_, ?_⟩
  · simp only [Slice.make, dif_pos capacity, cut, joined, ok_bind]
    rfl
  · rw [RawLog.Shows, all, items, next, shows']
    rfl
  · rw [all]
    simp only [Slice.single, List.length_append, List.length_singleton]
    omega

theorem compact (shows' : r.Shows l) (index : UInt64) :
    ∃ result, r.compact index = .ok result ∧
      ((result = none ∧ l.compact index = none) ∨ ∃ after log, result = some after ∧ l.compact index = some log ∧
        after.Shows log ∧ after.entries.items.length ≤ r.entries.items.length) := by
  simp only [RawLog.compact, shows'.termAt, ok_bind, Log.compact]
  cases found : l.termAt index with
  | none => exact ⟨none, rfl, Or.inl ⟨rfl, rfl⟩⟩
  | some term =>
    obtain ⟨after, done, shown, size⟩ := shows'.rebased (Option.isSome_iff_exists.mpr ⟨term, found⟩) term
    refine ⟨some after, ?_, Or.inr ⟨after, _, rfl, rfl, shown, size⟩⟩
    simp only [done, ok_bind]
    rfl

theorem installSnapshotBoundary (shows' : r.Shows l) (index term : UInt64) :
    ∃ after, r.installSnapshotBoundary index term = .ok after ∧ after.Shows (l.installSnapshotBoundary index term) ∧
      after.entries.items.length ≤ r.entries.items.length := by
  simp only [RawLog.installSnapshotBoundary, shows'.termAt, ok_bind, Log.installSnapshotBoundary]
  by_cases found : l.termAt index = some term
  · simp only [if_pos found]
    exact shows'.rebased (Option.isSome_iff_exists.mpr ⟨term, found⟩) term
  · simp only [if_neg found]
    refine ⟨_, rfl, rfl, ?_⟩
    rw [shows'.length]
    exact Nat.le_add_left 1 _

end Shows

end RawLog

end ForgeDB.Raft.Words
