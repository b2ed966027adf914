import ForgeDB.Consensus.Participant

/-!
The in-memory log of a node. The first slot is a sentinel: position zero before any
compaction, and the snapshot boundary afterwards. Logical index `i` lives at offset
`i - sentinel.index`. Terms and indexes are natural numbers here.
-/

namespace ForgeDB.Raft

open Consensus

abbrev Command := List UInt8

structure LogEntry where
  index : Nat
  term : Nat
  command : Command
  deriving DecidableEq, Repr, Inhabited

instance : Stamped LogEntry := ⟨LogEntry.term⟩

/-- The source keeps one slice whose slot zero always exists; here that slot is a field. -/
structure Log where
  sentinel : LogEntry
  rest : List LogEntry
  deriving DecidableEq, Repr, Inhabited

namespace Log

def entries (l : Log) : List LogEntry := l.sentinel :: l.rest

def newLog : Log := ⟨⟨0, 0, []⟩, []⟩

def lastIndex (l : Log) : Nat := l.sentinel.index + l.entries.length - 1

def lastTerm (l : Log) : Nat := (l.rest.getLast?.getD l.sentinel).term

def termAt (l : Log) (index : Nat) : Option Nat :=
  let base := l.sentinel.index
  if index < base then none
  else
    let offset := index - base
    l.entries[offset]?.map LogEntry.term

def entryAt (l : Log) (index : Nat) : Option LogEntry :=
  let base := l.sentinel.index
  if index ≤ base then none
  else
    let offset := index - base
    l.entries[offset]?

def append (l : Log) (e : LogEntry) : Log × Nat :=
  let index := l.sentinel.index + l.entries.length
  ({ l with rest := l.rest ++ [{ e with index := index }] }, index)

def slice (l : Log) (first : Nat) : List LogEntry :=
  let base := l.sentinel.index
  let first := if first ≤ base then base + 1 else first
  l.entries.drop (first - base)

def range (l : Log) (first last : Nat) : List LogEntry :=
  let base := l.sentinel.index
  let first := if first ≤ base then base + 1 else first
  let last := if l.lastIndex < last then l.lastIndex else last
  if last < first then []
  else (l.entries.drop (first - base)).take (last - base - (first - base) + 1)

def renumber (startIdx : Nat) (entries : List LogEntry) : List LogEntry :=
  entries.mapIdx fun i e => { e with index := startIdx + i }

def appendFrom (l : Log) (startIdx : Nat) (entries : List LogEntry) : Log :=
  { l with rest := l.rest ++ renumber startIdx entries }

/-- The log cut before `offset`. Slot zero stays: every caller has `0 < offset`. -/
def truncate (l : Log) (offset : Nat) : Log :=
  { l with rest := l.rest.take (offset - 1) }

def appendAfterFrom (l : Log) (idx : Nat) : List LogEntry → Log × Bool
  | [] => (l, false)
  | e :: more =>
    let offset := idx - l.sentinel.index
    match l.entries[offset]? with
    | some own =>
      if own.term = e.term then appendAfterFrom l (idx + 1) more
      else ((l.truncate offset).appendFrom idx (e :: more), true)
    | none => (l.appendFrom idx (e :: more), true)

def appendAfter (l : Log) (prevIndex : Nat) (newEntries : List LogEntry) : Log × Bool :=
  l.appendAfterFrom (prevIndex + 1) newEntries

def compact (l : Log) (index : Nat) : Option Log :=
  match l.termAt index with
  | none => none
  | some term =>
    let offset := index - l.sentinel.index
    some ⟨⟨index, term, []⟩, l.entries.drop (offset + 1)⟩

/-- Adopt a leader's boundary: keep the suffix after a matching entry, otherwise nothing. -/
def installSnapshotBoundary (l : Log) (lastIncludedIndex lastIncludedTerm : Nat) : Log :=
  if l.termAt lastIncludedIndex = some lastIncludedTerm then
    let offset := lastIncludedIndex - l.sentinel.index
    ⟨⟨lastIncludedIndex, lastIncludedTerm, []⟩, l.entries.drop (offset + 1)⟩
  else ⟨⟨lastIncludedIndex, lastIncludedTerm, []⟩, []⟩

def newLogFromEntries (baseIndex baseTerm : Nat) (entries : List LogEntry) : Log :=
  ⟨⟨baseIndex, baseTerm, []⟩, entries⟩

end Log

def logIsUpToDate (candidateLastIndex candidateLastTerm voterLastIndex voterLastTerm : Nat) : Bool :=
  if candidateLastTerm ≠ voterLastTerm then candidateLastTerm > voterLastTerm
  else candidateLastIndex ≥ voterLastIndex

namespace Log

def window (l : Log) : Window LogEntry := ⟨l.sentinel.index, l.sentinel.term, l.rest⟩

@[simp] theorem window_base (l : Log) : l.window.base = l.sentinel.index := rfl

@[simp] theorem window_baseTerm (l : Log) : l.window.baseTerm = l.sentinel.term := rfl

@[simp] theorem window_rest (l : Log) : l.window.rest = l.rest := rfl

theorem lastIndex_eq (l : Log) : l.lastIndex = l.sentinel.index + l.rest.length := by
  simp only [lastIndex, entries, List.length_cons]
  omega

theorem window_last (l : Log) : l.window.last = l.lastIndex := by
  rw [lastIndex_eq]
  rfl

theorem window_lastTerm (l : Log) : l.window.lastTerm = l.lastTerm := by
  simp only [Window.lastTerm, window_rest, window_baseTerm, lastTerm]
  cases l.rest.getLast? <;> rfl

theorem termAt_sentinel (l : Log) : l.termAt l.sentinel.index = some l.sentinel.term := by
  simp [termAt, entries]

theorem termAt_rest (l : Log) (slot : Nat) :
    l.termAt (l.sentinel.index + slot + 1) = l.rest[slot]?.map LogEntry.term := by
  have offset : l.sentinel.index + slot + 1 - l.sentinel.index = slot + 1 := by omega
  simp only [termAt, entries, offset, List.getElem?_cons_succ]
  rw [if_neg (by omega)]

theorem termAt_entries (l : Log) (slot : Nat) :
    l.termAt (l.sentinel.index + slot) = l.entries[slot]?.map LogEntry.term := by
  have offset : l.sentinel.index + slot - l.sentinel.index = slot := by omega
  simp only [termAt, offset]
  rw [if_neg (by omega)]

theorem termAt_cases {l : Log} {index term : Nat} (found : l.termAt index = some term) :
    (index = l.sentinel.index ∧ term = l.sentinel.term) ∨
      ∃ slot entry, index = l.sentinel.index + slot + 1 ∧ l.rest[slot]? = some entry ∧ entry.term = term := by
  have above : l.sentinel.index ≤ index := by
    by_contra below
    simp only [termAt, if_pos (show index < l.sentinel.index by omega)] at found
    cases found
  obtain ⟨offset, rfl⟩ : ∃ offset, index = l.sentinel.index + offset := ⟨index - l.sentinel.index, by omega⟩
  cases offset with
  | zero =>
    rw [Nat.add_zero, termAt_sentinel, Option.some.injEq] at found
    exact Or.inl ⟨rfl, found.symm⟩
  | succ slot =>
    rw [← Nat.add_assoc, termAt_rest, Option.map_eq_some_iff] at found
    obtain ⟨entry, present, same⟩ := found
    exact Or.inr ⟨slot, entry, rfl, present, same⟩

theorem termAt_bounds {l : Log} {index term : Nat} (found : l.termAt index = some term) :
    l.sentinel.index ≤ index ∧ index ≤ l.lastIndex := by
  rw [lastIndex_eq]
  rcases termAt_cases found with ⟨rfl, _⟩ | ⟨slot, entry, rfl, present, _⟩
  · omega
  · have inside := (List.getElem?_eq_some_iff.mp present).1
    omega

theorem termAt_of_le {l : Log} {index : Nat} (above : l.sentinel.index ≤ index)
    (below : index ≤ l.lastIndex) : ∃ term, l.termAt index = some term := by
  rw [lastIndex_eq] at below
  obtain ⟨offset, rfl⟩ : ∃ offset, index = l.sentinel.index + offset := ⟨index - l.sentinel.index, by omega⟩
  cases offset with
  | zero => exact ⟨_, l.termAt_sentinel⟩
  | succ slot =>
    rw [← Nat.add_assoc, termAt_rest, List.getElem?_eq_getElem (by omega)]
    exact ⟨_, rfl⟩

theorem entryAt_rest (l : Log) (slot : Nat) :
    l.entryAt (l.sentinel.index + slot + 1) = l.rest[slot]? := by
  have offset : l.sentinel.index + slot + 1 - l.sentinel.index = slot + 1 := by omega
  simp only [entryAt, entries, offset, List.getElem?_cons_succ]
  rw [if_neg (by omega)]

theorem entryAt_cases {l : Log} {index : Nat} {entry : LogEntry} (found : l.entryAt index = some entry) :
    ∃ slot, index = l.sentinel.index + slot + 1 ∧ l.rest[slot]? = some entry := by
  have above : l.sentinel.index < index := by
    by_contra below
    simp only [entryAt, if_pos (show index ≤ l.sentinel.index by omega)] at found
    cases found
  obtain ⟨slot, rfl⟩ : ∃ slot, index = l.sentinel.index + slot + 1 :=
    ⟨index - l.sentinel.index - 1, by omega⟩
  rw [entryAt_rest] at found
  exact ⟨slot, rfl, found⟩

theorem entryAt_of_le {l : Log} {index : Nat} (above : l.sentinel.index < index) (below : index ≤ l.lastIndex) :
    ∃ entry, l.entryAt index = some entry := by
  rw [lastIndex_eq] at below
  obtain ⟨slot, rfl⟩ : ∃ slot, index = l.sentinel.index + slot + 1 := ⟨index - l.sentinel.index - 1, by omega⟩
  rw [entryAt_rest, List.getElem?_eq_getElem (by omega)]
  exact ⟨_, rfl⟩

theorem entryAt_append (l : Log) (e : LogEntry) (index : Nat) :
    (l.append e).1.entryAt index =
      if index = l.lastIndex + 1 then some { e with index := l.lastIndex + 1 } else l.entryAt index := by
  have next : l.sentinel.index + l.entries.length = l.lastIndex + 1 := by
    simp only [lastIndex_eq, entries, List.length_cons]
    omega
  simp only [append, next]
  by_cases inside : index ≤ l.sentinel.index
  · have other : index ≠ l.lastIndex + 1 := by
      rw [lastIndex_eq]
      omega
    simp only [entryAt, if_pos inside, if_neg other]
  obtain ⟨slot, rfl⟩ : ∃ slot, index = l.sentinel.index + slot + 1 := ⟨index - l.sentinel.index - 1, by omega⟩
  rw [entryAt_rest, entryAt_rest ⟨l.sentinel, _⟩, lastIndex_eq]
  by_cases final : slot = l.rest.length
  · rw [final, if_pos (by omega), List.getElem?_append_right (Nat.le_refl _), Nat.sub_self]
    rfl
  · rw [if_neg (by omega)]
    by_cases old : slot < l.rest.length
    · rw [List.getElem?_append_left old]
    · have beyond : l.rest.length + 1 ≤ slot := by omega
      rw [List.getElem?_eq_none (l := l.rest) (by omega), List.getElem?_eq_none]
      simpa only [List.length_append, List.length_singleton] using beyond

theorem entryAt_drop {l : Log} {boundary : LogEntry} (above : l.sentinel.index ≤ boundary.index) {index : Nat}
    (kept : boundary.index < index) :
    (⟨boundary, l.rest.drop (boundary.index - l.sentinel.index)⟩ : Log).entryAt index = l.entryAt index := by
  obtain ⟨slot, rfl⟩ : ∃ slot, index = boundary.index + slot + 1 := ⟨index - boundary.index - 1, by omega⟩
  have place : boundary.index + slot + 1 = l.sentinel.index + (boundary.index - l.sentinel.index + slot) + 1 := by
    omega
  rw [entryAt_rest ⟨boundary, _⟩, List.getElem?_drop, place, entryAt_rest]

theorem range_getElem? {l : Log} {first last slot : Nat} {entry : LogEntry}
    (found : (l.range first last)[slot]? = some entry) :
    max first (l.sentinel.index + 1) + slot ≤ last ∧
      l.entryAt (max first (l.sentinel.index + 1) + slot) = some entry := by
  have start : (if first ≤ l.sentinel.index then l.sentinel.index + 1 else first) =
      max first (l.sentinel.index + 1) := by
    split <;> omega
  have above : l.sentinel.index < max first (l.sentinel.index + 1) := by omega
  have clamp : (if l.lastIndex < last then l.lastIndex else last) ≤ last := by
    split <;> omega
  simp only [range, start] at found
  generalize max first (l.sentinel.index + 1) = start at found above ⊢
  generalize (if l.lastIndex < last then l.lastIndex else last) = stop at found clamp
  split at found
  · cases found
  have inside := (List.getElem?_eq_some_iff.mp found).1
  rw [List.length_take] at inside
  rw [List.getElem?_take_of_lt (by omega), List.getElem?_drop] at found
  refine ⟨by omega, ?_⟩
  have offset : start + slot - l.sentinel.index = start - l.sentinel.index + slot := by omega
  simp only [entryAt, if_neg (show ¬start + slot ≤ l.sentinel.index by omega), offset, found]

theorem termAt_of_entryAt {l : Log} {index : Nat} {entry : LogEntry} (found : l.entryAt index = some entry) :
    l.termAt index = some entry.term := by
  obtain ⟨slot, rfl, present⟩ := entryAt_cases found
  rw [termAt_rest, present]
  rfl

theorem termAt_last (l : Log) : l.termAt l.lastIndex = some l.lastTerm := by
  rw [lastIndex_eq]
  rcases List.eq_nil_or_concat l.rest with empty | ⟨front, final, shape⟩
  · rw [empty, List.length_nil, Nat.add_zero, termAt_sentinel]
    simp only [lastTerm, empty, List.getLast?_nil, Option.getD_none]
  · rw [List.concat_eq_append] at shape
    have length : l.sentinel.index + l.rest.length = l.sentinel.index + front.length + 1 := by
      rw [shape, List.length_append, List.length_singleton]
      omega
    rw [length, termAt_rest]
    simp only [lastTerm, shape, List.getElem?_concat_length, Option.map_some, List.getLast?_append,
      List.getLast?_singleton, Option.some_or, Option.getD_some]

theorem renumber_getElem? (startIdx slot : Nat) (entries : List LogEntry) :
    (renumber startIdx entries)[slot]? = entries[slot]?.map fun e => { e with index := startIdx + slot } := by
  simp only [renumber, List.getElem?_mapIdx]

theorem renumber_eq_self {startIdx : Nat} {entries : List LogEntry}
    (numbered : ∀ slot e, entries[slot]? = some e → e.index = startIdx + slot) :
    renumber startIdx entries = entries := by
  apply List.ext_getElem?
  intro slot
  rw [renumber_getElem?]
  cases present : entries[slot]? with
  | none => rfl
  | some e =>
    rw [Option.map_some, ← numbered slot e present]

def Matches (l : Log) (start : Nat) (newEntries : List LogEntry) (slot : Nat) : Prop :=
  ∃ own e, l.rest[start + slot]? = some own ∧ newEntries[slot]? = some e ∧ own.term = e.term

/-- `appendAfter` keeps the log if every incoming entry matches; otherwise it keeps the log up to
the first entry that does not, and takes the incoming entries from there. -/
theorem appendAfterFrom_spec (l : Log) (start : Nat) (newEntries : List LogEntry)
    (reach : start ≤ l.rest.length) :
    (l.appendAfterFrom (l.sentinel.index + start + 1) newEntries = (l, false) ∧
      ∀ slot, slot < newEntries.length → l.Matches start newEntries slot) ∨
    ∃ kept e, newEntries[kept]? = some e ∧ (∀ slot, slot < kept → l.Matches start newEntries slot) ∧
      (∀ own, l.rest[start + kept]? = some own → own.term ≠ e.term) ∧ start + kept ≤ l.rest.length ∧
      l.appendAfterFrom (l.sentinel.index + start + 1) newEntries =
        (⟨l.sentinel, l.rest.take (start + kept) ++
          renumber (l.sentinel.index + start + kept + 1) (newEntries.drop kept)⟩, true) := by
  induction newEntries generalizing start with
  | nil => exact Or.inl ⟨rfl, fun slot inside => absurd inside (Nat.not_lt_zero slot)⟩
  | cons e more ih =>
    have offset : l.sentinel.index + start + 1 - l.sentinel.index = start + 1 := by omega
    have here : l.entries[l.sentinel.index + start + 1 - l.sentinel.index]? = l.rest[start]? := by
      rw [offset]
      rfl
    cases present : l.rest[start]? with
    | none =>
      have atEnd : start = l.rest.length := by
        have beyond := List.getElem?_eq_none_iff.mp present
        omega
      refine Or.inr ⟨0, e, rfl, fun slot inside => absurd inside (Nat.not_lt_zero slot), ?_, reach, ?_⟩
      · intro own found
        rw [Nat.add_zero, present] at found
        cases found
      · have whole : l.rest.take start = l.rest := List.take_of_length_le (by omega)
        simp only [appendAfterFrom, here, present, appendFrom, Nat.add_zero, List.drop_zero, whole]
    | some own =>
      by_cases same : own.term = e.term
      · have inside : start < l.rest.length := (List.getElem?_eq_some_iff.mp present).1
        have continued : l.appendAfterFrom (l.sentinel.index + start + 1) (e :: more) =
            l.appendAfterFrom (l.sentinel.index + (start + 1) + 1) more := by
          simp only [appendAfterFrom, here, present, if_pos same]
          rw [← Nat.add_assoc]
        have first : l.Matches start (e :: more) 0 := ⟨own, e, present, rfl, same⟩
        have shift : ∀ slot, l.Matches (start + 1) more slot → l.Matches start (e :: more) (slot + 1) := by
          rintro slot ⟨own', e', atOwn, atNew, terms⟩
          refine ⟨own', e', ?_, atNew, terms⟩
          rw [← atOwn]
          congr 1
          omega
        rw [continued]
        rcases ih (start + 1) inside with ⟨unchanged, all⟩ | ⟨kept, e', atKept, before, conflict, reach', changed⟩
        · refine Or.inl ⟨unchanged, fun slot bound => ?_⟩
          cases slot with
          | zero => exact first
          | succ slot =>
            exact shift slot (all slot (by simpa only [List.length_cons, Nat.succ_lt_succ_iff] using bound))
        · refine Or.inr ⟨kept + 1, e', atKept, fun slot bound => ?_, ?_, by omega, ?_⟩
          · cases slot with
            | zero => exact first
            | succ slot => exact shift slot (before slot (by omega))
          · intro own' found
            exact conflict own' (by rw [← found]; congr 1; omega)
          · rw [changed, List.drop_succ_cons]
            congr 3
            · congr 1
              omega
            · congr 1
              omega
      · refine Or.inr ⟨0, e, rfl, fun slot inside => absurd inside (Nat.not_lt_zero slot), ?_, reach, ?_⟩
        · intro own' found
          rw [Nat.add_zero, present, Option.some.injEq] at found
          rwa [← found]
        · have cut : l.truncate (l.sentinel.index + start + 1 - l.sentinel.index) =
              ⟨l.sentinel, l.rest.take start⟩ := by
            rw [offset]
            rfl
          simp only [appendAfterFrom, here, present, if_neg same, cut, appendFrom, Nat.add_zero, List.drop_zero]

theorem appendAfterFrom_sentinel (l : Log) (idx : Nat) (newEntries : List LogEntry) :
    (l.appendAfterFrom idx newEntries).1.sentinel = l.sentinel := by
  induction newEntries generalizing idx with
  | nil => rfl
  | cons e more ih =>
    simp only [appendAfterFrom]
    split
    · split
      · exact ih (idx + 1)
      · rfl
    · rfl

theorem appendAfterFrom_unchanged {l : Log} {idx : Nat} {newEntries : List LogEntry}
    (unchanged : (l.appendAfterFrom idx newEntries).2 = false) : (l.appendAfterFrom idx newEntries).1 = l := by
  induction newEntries generalizing idx with
  | nil => rfl
  | cons e more ih =>
    simp only [appendAfterFrom] at unchanged ⊢
    split at unchanged
    · split at unchanged
      · rename_i same
        simp only [if_pos same]
        exact ih unchanged
      · cases unchanged
    · cases unchanged

theorem slice_eq (l : Log) (start : Nat) : l.slice (l.sentinel.index + start + 1) = l.rest.drop start := by
  have offset : l.sentinel.index + start + 1 - l.sentinel.index = start + 1 := by omega
  simp only [slice, if_neg (show ¬l.sentinel.index + start + 1 ≤ l.sentinel.index by omega), offset, entries,
    List.drop_succ_cons]

theorem drop_entries_eq (l : Log) (index : Nat) :
    l.entries.drop (index - l.sentinel.index + 1) = l.rest.drop (index - l.sentinel.index) := by
  simp only [entries, List.drop_succ_cons]

theorem compact_of_termAt {l : Log} {index term : Nat} (found : l.termAt index = some term) :
    l.compact index = some ⟨⟨index, term, []⟩, l.rest.drop (index - l.sentinel.index)⟩ := by
  simp only [compact, found, drop_entries_eq]

theorem installSnapshotBoundary_sentinel (l : Log) (index term : Nat) :
    (l.installSnapshotBoundary index term).sentinel = ⟨index, term, []⟩ := by
  unfold installSnapshotBoundary
  split <;> rfl

theorem drop_last {l : Log} {index term : Nat} (found : l.termAt index = some term) (command : Command) :
    let smaller : Log := ⟨⟨index, term, command⟩, l.rest.drop (index - l.sentinel.index)⟩
    smaller.lastIndex = l.lastIndex ∧ smaller.lastTerm = l.lastTerm := by
  have bounds := termAt_bounds found
  simp only [lastIndex_eq] at bounds ⊢
  refine ⟨by simp only [List.length_drop]; omega, ?_⟩
  rcases termAt_cases found with ⟨same, terms⟩ | ⟨slot, entry, place, present, terms⟩
  · subst same
    subst terms
    simp only [lastTerm, Nat.sub_self, List.drop_zero]
    cases l.rest.getLast? <;> rfl
  · have inside := (List.getElem?_eq_some_iff.mp present).1
    have offset : index - l.sentinel.index = slot + 1 := by omega
    simp only [lastTerm, offset]
    by_cases short : slot + 1 < l.rest.length
    · have kept : (l.rest.drop (slot + 1)).getLast? = l.rest.getLast? := by
        rw [List.getLast?_drop, if_neg (by omega)]
      rw [kept]
      cases shape : l.rest.getLast? with
      | none =>
        rw [List.getLast?_eq_none_iff] at shape
        simp only [shape, List.length_nil] at short
        omega
      | some final => rfl
    · have atEnd : l.rest.getLast? = some entry := by
        rw [List.getLast?_eq_getElem?, ← present]
        congr 1
        omega
      rw [List.drop_eq_nil_of_le (by omega), atEnd]
      exact terms.symm

end Log

end ForgeDB.Raft
