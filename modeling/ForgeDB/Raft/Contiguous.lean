import ForgeDB.Raft.Words

/-!
A log whose indexes follow each other. Replication resolves conflicts exactly: what agrees with the
incoming entries stays, what does not is cut, and the indexes go on without a gap, also where they wrap
around.
-/

namespace ForgeDB.Raft.Words

namespace Log

def Contiguous (l : Log) : Prop :=
  ∀ slot e, l.entries[slot]? = some e → e.index = l.sentinel.index + UInt64.ofNat slot

def Matches (l : Log) (slot : Nat) (newEntries : List LogEntry) (i : Nat) : Prop :=
  ∃ own e, l.entries[slot + i]? = some own ∧ newEntries[i]? = some e ∧ own.term = e.term

theorem termAt_slot {l : Log} {index : UInt64} (present : (l.termAt index).isSome = true) :
    l.sentinel.index ≤ index ∧ (index - l.sentinel.index).toNat < l.entries.length := by
  unfold termAt at present
  by_cases below : index < l.sentinel.index
  · rw [if_pos below] at present
    cases present
  · rw [if_neg below, Option.isSome_map] at present
    exact ⟨UInt64.not_lt.mp below, by simpa using present⟩

theorem renumber_getElem? (startIdx : UInt64) (entries : List LogEntry) (i : Nat) :
    (renumber startIdx entries)[i]? = entries[i]?.map fun e => { e with index := startIdx + UInt64.ofNat i } :=
  List.getElem?_mapIdx

@[simp] theorem renumber_length (startIdx : UInt64) (entries : List LogEntry) :
    (renumber startIdx entries).length = entries.length := List.length_mapIdx

theorem appendAfterFrom_spec (l : Log) {slot : Nat} {idx : UInt64} (newEntries : List LogEntry)
    (here : (idx - l.sentinel.index).toNat = slot) (behind : 0 < slot) (reach : slot ≤ l.entries.length)
    (room : slot + newEntries.length < 2 ^ 64) :
    (l.appendAfterFrom idx newEntries = (l, false) ∧ ∀ i, i < newEntries.length → l.Matches slot newEntries i) ∨
      ∃ kept, kept < newEntries.length ∧ (∀ i, i < kept → l.Matches slot newEntries i) ∧
        ¬l.Matches slot newEntries kept ∧ slot + kept ≤ l.entries.length ∧
        (l.appendAfterFrom idx newEntries).1.entries =
          l.entries.take (slot + kept) ++ renumber (idx + UInt64.ofNat kept) (newEntries.drop kept) ∧
        (l.appendAfterFrom idx newEntries).2 = true := by
  induction newEntries generalizing idx slot with
  | nil => exact Or.inl ⟨rfl, fun i inside => absurd inside (Nat.not_lt_zero i)⟩
  | cons e more ih =>
    rw [List.length_cons] at room
    have start : idx + UInt64.ofNat 0 = idx := UInt64.add_zero idx
    have nothing : ∀ i, i < 0 → l.Matches slot (e :: more) i := fun i inside => absurd inside (Nat.not_lt_zero i)
    cases present : l.entries[slot]? with
    | none =>
      have beyond := List.getElem?_eq_none_iff.mp present
      refine Or.inr ⟨0, Nat.succ_pos _, nothing, ?_, reach, ?_, ?_⟩
      · rintro ⟨own, first, found, -⟩
        rw [Nat.add_zero, present] at found
        cases found
      · simp only [appendAfterFrom, here, present, appendFrom, Nat.add_zero, List.take_of_length_le beyond,
          List.drop_zero, start]
        rfl
      · simp only [appendAfterFrom, here, present]
    | some own =>
      by_cases same : own.term = e.term
      · have continued : l.appendAfterFrom idx (e :: more) = l.appendAfterFrom (idx + 1) more := by
          simp only [appendAfterFrom, here, present, if_pos same]
        have inside : slot < l.entries.length := (List.getElem?_eq_some_iff.mp present).1
        have first : l.Matches slot (e :: more) 0 := ⟨own, e, present, rfl, same⟩
        have shift : ∀ i, l.Matches slot (e :: more) (i + 1) ↔ l.Matches (slot + 1) more i := by
          intro i
          simp only [Matches, List.getElem?_cons_succ, Nat.add_right_comm slot 1 i, Nat.add_assoc]
        have all : ∀ {count}, (∀ i, i < count → l.Matches (slot + 1) more i) →
            ∀ i, i < count + 1 → l.Matches slot (e :: more) i := by
          intro count before i bound
          cases i with
          | zero => exact first
          | succ i => exact (shift i).mpr (before i (Nat.lt_of_succ_lt_succ bound))
        rw [continued]
        rcases ih (toNat_succ_sub here (by omega)) (Nat.succ_pos slot) inside (by omega) with
          ⟨unchanged, before⟩ | ⟨kept, bound, before, conflict, fits, entries, changed⟩
        · exact Or.inl ⟨unchanged, all before⟩
        · refine Or.inr ⟨kept + 1, Nat.succ_lt_succ bound, all before, fun again => conflict ((shift kept).mp again),
            by omega, ?_, changed⟩
          rw [entries, List.drop_succ_cons, Nat.add_assoc, Nat.add_comm 1 kept, UInt64.add_assoc,
            ← UInt64.ofNat_one, ← UInt64.ofNat_add, Nat.add_comm 1 kept]
      · refine Or.inr ⟨0, Nat.succ_pos _, nothing, ?_, reach, ?_, ?_⟩
        · rintro ⟨other, new, found, at_, terms⟩
          rw [Nat.add_zero, present] at found
          cases found
          cases at_
          exact same terms
        · simp only [appendAfterFrom, here, present, if_neg same, appendFrom, Nat.add_zero, List.drop_zero, start]
          obtain ⟨before, rfl⟩ : ∃ before, slot = before + 1 := ⟨slot - 1, by omega⟩
          rfl
        · simp only [appendAfterFrom, here, present, if_neg same]

theorem eq_add_offset {index base : UInt64} {slot : Nat} (here : (index - base).toNat = slot) :
    index = base + UInt64.ofNat slot := by
  rw [← here, UInt64.ofNat_toNat, UInt64.add_comm, UInt64.sub_add_cancel]

theorem Contiguous.resume {l after : Log} {kept : Nat} {newEntries : List LogEntry} (contiguous : l.Contiguous)
    (same : after.sentinel = l.sentinel) (reach : kept ≤ l.entries.length)
    (entries : after.entries = l.entries.take kept ++ renumber (l.sentinel.index + UInt64.ofNat kept) newEntries) :
    after.Contiguous := by
  intro slot e found
  rw [same]
  rw [entries, List.getElem?_append, List.length_take_of_le reach] at found
  split at found
  · rename_i before
    rw [List.getElem?_take_of_lt before] at found
    exact contiguous slot e found
  · rename_i after
    rw [renumber_getElem?] at found
    obtain ⟨new, -, rfl⟩ := Option.map_eq_some_iff.mp found
    dsimp only
    rw [UInt64.add_assoc, ← UInt64.ofNat_add, Nat.add_sub_cancel' (Nat.not_lt.mp after)]

theorem lastIndex_append {l after : Log} {kept : Nat} {newEntries : List LogEntry} {prevIndex : UInt64}
    (same : after.sentinel = l.sentinel) (reach : (prevIndex - l.sentinel.index).toNat + 1 + kept ≤ l.entries.length)
    (bound : kept ≤ newEntries.length) (first : UInt64)
    (entries : after.entries = l.entries.take ((prevIndex - l.sentinel.index).toNat + 1 + kept) ++
      renumber first (newEntries.drop kept)) :
    after.lastIndex = prevIndex + UInt64.ofNat newEntries.length := by
  have length : after.entries.length = (prevIndex - l.sentinel.index).toNat + newEntries.length + 1 := by
    rw [entries, List.length_append, List.length_take_of_le reach, renumber_length, List.length_drop]
    omega
  rw [lastIndex, same, length, UInt64.ofNat_add, UInt64.ofNat_add, UInt64.ofNat_toNat, ← UInt64.add_assoc,
    ← UInt64.add_assoc, UInt64.add_comm l.sentinel.index, UInt64.sub_add_cancel]
  exact UInt64.add_sub_cancel ..

theorem unchanged_below {l after : Log} {prevIndex : UInt64} (above : l.sentinel.index ≤ prevIndex)
    (same : after.sentinel = l.sentinel) (first : after.entries.take ((prevIndex - l.sentinel.index).toNat + 1) =
      l.entries.take ((prevIndex - l.sentinel.index).toNat + 1)) {index : UInt64} (below : index ≤ prevIndex) :
    after.termAt index = l.termAt index ∧ after.entryAt index = l.entryAt index := by
  have agree : l.sentinel.index ≤ index →
      after.entries[(index - l.sentinel.index).toNat]? = l.entries[(index - l.sentinel.index).toNat]? := by
    intro reached
    have before : (index - l.sentinel.index).toNat < (prevIndex - l.sentinel.index).toNat + 1 := by
      have low := UInt64.le_iff_toNat_le.mp below
      rw [UInt64.toNat_sub_of_le _ _ reached, UInt64.toNat_sub_of_le _ _ above]
      omega
    rw [← List.getElem?_take_of_lt before, first, List.getElem?_take_of_lt before]
  simp only [termAt, entryAt, same]
  refine ⟨?_, ?_⟩
  · by_cases lower : index < l.sentinel.index
    · rw [if_pos lower, if_pos lower]
    · rw [if_neg lower, if_neg lower, agree (UInt64.not_lt.mp lower)]
  · by_cases lower : index ≤ l.sentinel.index
    · rw [if_pos lower, if_pos lower]
    · rw [if_neg lower, if_neg lower, agree (UInt64.le_of_lt (UInt64.not_le.mp lower))]

theorem appendAfter_cases {l : Log} {prevIndex : UInt64} (newEntries : List LogEntry)
    (present : (l.termAt prevIndex).isSome = true) (room : l.entries.length + newEntries.length < 2 ^ 64) :
    let slot := (prevIndex - l.sentinel.index).toNat + 1
    (l.appendAfter prevIndex newEntries = (l, false) ∧ ∀ i, i < newEntries.length → l.Matches slot newEntries i) ∨
      ∃ kept, kept < newEntries.length ∧ (∀ i, i < kept → l.Matches slot newEntries i) ∧
        ¬l.Matches slot newEntries kept ∧ slot + kept ≤ l.entries.length ∧
        (l.appendAfter prevIndex newEntries).1.entries =
          l.entries.take (slot + kept) ++ renumber (prevIndex + 1 + UInt64.ofNat kept) (newEntries.drop kept) ∧
        (l.appendAfter prevIndex newEntries).2 = true := by
  have inside := (termAt_slot present).2
  exact appendAfterFrom_spec l newEntries (toNat_succ_sub rfl (by omega)) (Nat.succ_pos _) inside (by omega)

theorem Contiguous.appendAfter {l : Log} {prevIndex : UInt64} {newEntries : List LogEntry} (contiguous : l.Contiguous)
    (present : (l.termAt prevIndex).isSome = true) (room : l.entries.length + newEntries.length < 2 ^ 64) :
    (l.appendAfter prevIndex newEntries).1.Contiguous := by
  rcases appendAfter_cases newEntries present room with ⟨unchanged, -⟩ | ⟨kept, -, -, -, reach, entries, -⟩
  · rw [unchanged]
    exact contiguous
  · have next : prevIndex + 1 = l.sentinel.index + UInt64.ofNat ((prevIndex - l.sentinel.index).toNat + 1) :=
      eq_add_offset (toNat_succ_sub rfl (by omega))
    rw [next, UInt64.add_assoc, ← UInt64.ofNat_add] at entries
    exact contiguous.resume (appendAfterFrom_sentinel l _ newEntries) reach entries

theorem Contiguous.append {l : Log} (contiguous : l.Contiguous) (e : LogEntry) : (l.append e).1.Contiguous := by
  have shape : (l.append e).1.entries = l.entries.take l.entries.length ++
      renumber (l.sentinel.index + UInt64.ofNat l.entries.length) [e] := by
    rw [List.take_length]
    exact congrArg (fun index => l.entries ++ [{ e with index := index }]) (UInt64.add_zero _).symm
  exact contiguous.resume rfl (Nat.le_refl _) shape

theorem Contiguous.cut {l : Log} (contiguous : l.Contiguous) (index term : UInt64) :
    Contiguous ⟨⟨index, term, []⟩, l.entries.drop ((index - l.sentinel.index).toNat + 1)⟩ := by
  intro slot e found
  cases slot with
  | zero =>
    cases found
    exact (UInt64.add_zero index).symm
  | succ slot =>
    have place : index = l.sentinel.index + UInt64.ofNat (index - l.sentinel.index).toNat := eq_add_offset rfl
    rw [entries, List.getElem?_cons_succ, List.getElem?_drop] at found
    rw [contiguous _ e found, Nat.add_assoc, Nat.add_comm 1, UInt64.ofNat_add, ← UInt64.add_assoc, ← place]

theorem Contiguous.compact {l after : Log} {index : UInt64} (contiguous : l.Contiguous)
    (done : l.compact index = some after) : after.Contiguous := by
  unfold Log.compact at done
  split at done
  · cases done
  · cases done
    exact contiguous.cut index _

theorem compact_base {l after : Log} {index : UInt64} (done : l.compact index = some after) :
    after.sentinel.index = index := by
  unfold Log.compact at done
  split at done <;> cases done
  rfl

theorem installSnapshotBoundary_base (l : Log) (index term : UInt64) :
    (l.installSnapshotBoundary index term).sentinel.index = index := by
  unfold Log.installSnapshotBoundary
  split <;> rfl

theorem Contiguous.installSnapshotBoundary {l : Log} (contiguous : l.Contiguous) (index term : UInt64) :
    (l.installSnapshotBoundary index term).Contiguous := by
  unfold Log.installSnapshotBoundary
  split
  · exact contiguous.cut index term
  · intro slot e found
    cases slot with
    | zero =>
      cases found
      exact (UInt64.add_zero index).symm
    | succ slot => cases found

end Log

/-- `AppendAfter` resolves conflicts exactly, also where indexes wrap around: the log up to `prevIndex` stays; if
every incoming entry matches nothing changes; otherwise the entries behind `prevIndex` are those that match up to the
first that does not, and then the rest of the incoming ones. A message that agrees with the log wherever both have an
entry never shortens it. -/
theorem Log.appendAfter_exact (l : Log) (prevIndex : UInt64) (newEntries : List LogEntry) (contiguous : l.Contiguous)
    (present : (l.termAt prevIndex).isSome = true) (logFits : l.entries.length < 2 ^ 63)
    (entriesFit : newEntries.length < 2 ^ 63) :
    let after := (l.appendAfter prevIndex newEntries).1
    let changed := (l.appendAfter prevIndex newEntries).2
    let slot := (prevIndex - l.sentinel.index).toNat + 1
    after.Contiguous ∧ after.sentinel = l.sentinel ∧ after.entries.take slot = l.entries.take slot ∧
      (∀ index, index ≤ prevIndex → after.termAt index = l.termAt index ∧ after.entryAt index = l.entryAt index) ∧
      ((∀ i, i < newEntries.length → l.Matches slot newEntries i) → after = l ∧ changed = false) ∧
      ((∃ i, i < newEntries.length ∧ ¬l.Matches slot newEntries i) →
        changed = true ∧ after.lastIndex = prevIndex + UInt64.ofNat newEntries.length ∧
        ∃ kept, kept < newEntries.length ∧ (∀ i, i < kept → l.Matches slot newEntries i) ∧
          ¬l.Matches slot newEntries kept ∧
          after.entries.drop slot = (l.entries.drop slot).take kept ++
            Log.renumber (prevIndex + 1 + UInt64.ofNat kept) (newEntries.drop kept)) ∧
      ((∀ i own e, l.entries[slot + i]? = some own → newEntries[i]? = some e → own.term = e.term) →
        l.entries <+: after.entries) := by
  intro after changed slot
  have room : l.entries.length + newEntries.length < 2 ^ 64 := by omega
  have inside : slot ≤ l.entries.length := (Log.termAt_slot present).2
  have same : after.sentinel = l.sentinel := Log.appendAfterFrom_sentinel l _ newEntries
  refine ⟨contiguous.appendAfter present room, same, ?_⟩
  rcases Log.appendAfter_cases newEntries present room with
    ⟨unchanged, all⟩ | ⟨kept, bound, before, conflict, reach, entries, marked⟩
  · have afterEq : after = l := congrArg Prod.fst unchanged
    have quiet : changed = false := congrArg Prod.snd unchanged
    refine ⟨by rw [afterEq], fun _ _ => by rw [afterEq]; exact ⟨rfl, rfl⟩, fun _ => ⟨afterEq, quiet⟩, ?_, ?_⟩
    · rintro ⟨i, within, missing⟩
      exact absurd (all i within) missing
    · intro _
      rw [afterEq]
  · have first : after.entries.take slot = l.entries.take slot := by
      rw [show after.entries = _ from entries, List.take_append_of_le_length (by
        rw [List.length_take_of_le reach]; omega), List.take_take, Nat.min_eq_left (Nat.le_add_right _ _)]
    refine ⟨first, fun index => Log.unchanged_below (Log.termAt_slot present).1 same first, ?_, ?_, ?_⟩
    · exact fun all => absurd (all kept bound) conflict
    · refine fun _ => ⟨marked, Log.lastIndex_append same reach bound.le _ entries, kept, bound, before, conflict, ?_⟩
      rw [show after.entries = _ from entries, List.drop_append_of_le_length (by
        rw [List.length_take_of_le reach]; omega), List.drop_take, Nat.add_sub_cancel_left]
    · -- The first entry that does not match is behind the end of the log, so nothing was cut.
      intro agree
      have atEnd : l.entries.length ≤ slot + kept := by
        by_contra short
        have held := List.getElem?_eq_getElem (Nat.lt_of_not_le short)
        exact conflict
          ⟨_, _, held, List.getElem?_eq_getElem bound, agree kept _ _ held (List.getElem?_eq_getElem bound)⟩
      rw [show after.entries = _ from entries, List.take_of_length_le atEnd]
      exact List.prefix_append _ _

/-- A log of three entries behind a boundary, and a message that agrees with the first two. -/
theorem Log.appendAfter_exact_conflict :
    let l : Log := ⟨⟨5, 1, []⟩, [⟨6, 1, [1]⟩, ⟨7, 2, [2]⟩, ⟨8, 2, [3]⟩]⟩
    let newEntries : List LogEntry := [⟨0, 2, [2]⟩, ⟨0, 3, [9]⟩]
    l.Contiguous ∧ (l.termAt 6).isSome = true ∧
      (l.appendAfter 6 newEntries).1.entries = [⟨5, 1, []⟩, ⟨6, 1, [1]⟩, ⟨7, 2, [2]⟩, ⟨8, 3, [9]⟩] ∧
      (l.appendAfter 6 newEntries).1.Contiguous := by
  intro l newEntries
  have contiguous : l.Contiguous := by
    intro slot e found
    match slot with
    | 0 | 1 | 2 | 3 =>
      cases found
      rfl
    | slot + 4 => cases found
  exact ⟨contiguous, by decide, by decide,
    (Log.appendAfter_exact l 6 newEntries contiguous (by decide) (by decide) (by decide)).1⟩

end ForgeDB.Raft.Words
