import ForgeDB.Storage.SSTable.Layout

/-!
What the writer was given is what the reader answers from: lookups and iteration are read off the
layout of the file.
-/

namespace ForgeDB.Storage.SSTable

namespace Layout.Holds

variable {l : Layout} {entries : List Entry}

/-! ### Lookups -/

theorem block_of_mem (holds : l.Holds entries) {e : Entry} (present : e ∈ entries) :
    ∃ before block after, l.blocks = before ++ block :: after ∧ e ∈ block := by
  rw [← holds.whole] at present
  obtain ⟨block, inside, present⟩ := List.mem_flatten.mp present
  obtain ⟨before, after, split⟩ := List.append_of_mem inside
  exact ⟨before, block, after, split, present⟩

theorem mem_of_block (holds : l.Holds entries) {block : List Entry} (inside : block ∈ l.blocks) {e : Entry}
    (present : e ∈ block) : e ∈ entries :=
  holds.whole ▸ List.mem_flatten.mpr ⟨block, inside, present⟩

theorem firstKey_mem {block : List Entry} (filled : block ≠ []) : ∃ e ∈ block, firstKey block = e.key := by
  obtain ⟨first, rest, rfl⟩ := List.exists_cons_of_ne_nil filled
  exact ⟨first, List.mem_cons_self, rfl⟩

theorem firstKey_le {block : List Entry} (sorted : Sorted block) {e : Entry} (present : e ∈ block) :
    firstKey block ≤ e.key := by
  cases block with
  | nil => cases present
  | cons first rest =>
    rcases List.mem_cons.mp present with rfl | later
    · exact le_refl _
    · exact le_of_lt ((List.pairwise_cons.mp sorted).1 e later)

theorem notAbove_iff (first key : Bytes) : (compareBytes first key ≠ .gt) ↔ first ≤ key := by
  rcases lt_trichotomy first key with below | rfl | above
  · rw [compareBytes_lt below]
    exact ⟨fun _ => le_of_lt below, fun _ => Ordering.noConfusion⟩
  · rw [compareBytes_eq]
    exact ⟨fun _ => le_refl _, fun _ => Ordering.noConfusion⟩
  · rw [compareBytes_gt above]
    exact ⟨fun same => absurd rfl same, fun below => absurd above (not_lt.mpr below)⟩

theorem index_divides (holds : l.Holds entries) {before after : List (List Entry)} {block : List Entry}
    (split : l.blocks = before ++ block :: after) {e : Entry} (present : e ∈ block) {i : Nat} {loc : IndexEntry}
    (there : l.index[i]? = some loc) : loc.firstKey ≤ e.key ↔ i < before.length + 1 := by
  obtain ⟨earlier, other, later, cut, rfl⟩ := index_cases there
  rw [index_split cut, Option.some.injEq] at there
  rw [← there]
  have flat : Sorted (earlier.flatten ++ (other ++ later.flatten)) := by
    have sorted := holds.sorted
    rw [← holds.whole, cut, List.flatten_append, List.flatten_cons] at sorted
    exact sorted
  obtain ⟨_, tail, across⟩ := List.pairwise_append.mp flat
  obtain ⟨inner, _, beyond⟩ := List.pairwise_append.mp tail
  obtain ⟨first, member, key⟩ := firstKey_mem (holds.filled other (cut ▸ List.mem_append_right _ List.mem_cons_self))
  have same := cut.symm.trans split
  rcases Nat.lt_trichotomy earlier.length before.length with less | equal | more
  · -- The entry's block is among the later ones.
    have inside : block ∈ later := by
      have place : (earlier ++ other :: later)[before.length]? = some block := by
        rw [same, List.getElem?_append_right (Nat.le_refl _), Nat.sub_self]
        rfl
      rw [List.getElem?_append_right (Nat.le_of_lt less)] at place
      obtain ⟨gap, positive⟩ := Nat.exists_eq_add_of_lt less
      rw [positive, show earlier.length + gap + 1 - earlier.length = gap + 1 by omega, List.getElem?_cons_succ] at place
      exact List.mem_of_getElem? place
    have below := beyond first member e (List.mem_flatten.mpr ⟨block, inside, present⟩)
    exact ⟨fun _ => by omega, fun _ => key ▸ le_of_lt below⟩
  · obtain ⟨_, rest⟩ := List.append_inj same equal
    obtain ⟨rfl, _⟩ := List.cons.inj rest
    exact ⟨fun _ => by omega, fun _ => firstKey_le inner present⟩
  · -- The entry's block is among the earlier ones.
    have inside : block ∈ earlier := by
      have place : (before ++ block :: after)[before.length]? = some block := by
        rw [List.getElem?_append_right (Nat.le_refl _), Nat.sub_self]
        rfl
      rw [← same, List.getElem?_append_left more] at place
      exact List.mem_of_getElem? place
    have above := across e (List.mem_flatten.mpr ⟨block, inside, present⟩) first (List.mem_append_left _ member)
    exact ⟨fun below => absurd (key ▸ above) (not_lt.mpr below), fun less => by omega⟩

theorem candidateBlock_present (holds : l.Holds entries) {before after : List (List Entry)} {block : List Entry}
    (split : l.blocks = before ++ block :: after) {e : Entry} (present : e ∈ block) :
    l.reader.candidateBlock e.key = some before.length := by
  have size : l.index.length = before.length + 1 + after.length := by
    rw [Layout.index, locate_length, split, List.length_append, List.length_cons]
    omega
  unfold Reader.candidateBlock
  dsimp only [Layout.reader]
  rw [@bisect_eq _ _ _ _ (before.length + 1) (Nat.le_of_eq (Nat.sub_zero _)) (Nat.zero_le _) (by omega)]
  intro i _ inside
  rw [List.getElem?_eq_getElem inside]
  dsimp only
  rw [decide_eq_true_iff, notAbove_iff]
  exact holds.index_divides split present (List.getElem?_eq_getElem inside)

end Layout.Holds

def answer (entries : List Entry) (key : Bytes) : Bytes × Result :=
  match entries.find? fun e => e.key = key with
  | none => ([], .notFound)
  | some e => if e.tombstone then ([], .tombstone) else (e.value, .found)

namespace Layout.Holds

variable {l : Layout} {entries : List Entry}

theorem lookUp_present (holds : l.Holds entries) {e : Entry} (present : e ∈ entries) :
    (l.reader.lookUp e.key).run [] = some (.ok (if e.tombstone then ([], .tombstone) else (e.value, .found))) := by
  obtain ⟨before, block, after, split, inside⟩ := holds.block_of_mem present
  have sorted : Sorted block := by
    have sorted := holds.sorted
    rw [← holds.whole, split, List.flatten_append, List.flatten_cons] at sorted
    exact (List.pairwise_append.mp (List.pairwise_append.mp sorted).2.1).1
  have bloom : l.reader.bloom.mightContain e.key = true := holds.contained e present
  have there : l.reader.index[before.length]? = _ := index_split split
  rw [Cursor.run, Reader.lookUp, Cursor.bind_ok (Cursor.refuse_not (holds.stored e present).named _ _), if_pos bloom,
    holds.candidateBlock_present split inside]
  dsimp only
  rw [Cursor.bind_ok (Cursor.item_get there _), Cursor.bind_ok (holds.block_read split _ _ _),
    searchBlockEntries_present sorted inside]
  dsimp only
  cases e.tombstone <;> rfl

theorem lookUp_absent (holds : l.Holds entries) {key : Bytes} (named : key ≠ []) (absent : ∀ e ∈ entries, e.key ≠ key) :
    (l.reader.lookUp key).run [] = some (.ok ([], .notFound)) := by
  rw [Cursor.run, Reader.lookUp, Cursor.bind_ok (Cursor.refuse_not named _ _)]
  split
  · cases candidate : l.reader.candidateBlock key with
    | none => rfl
    | some i =>
      obtain ⟨before, block, after, split, rfl⟩ :=
        index_cases (List.getElem?_eq_getElem (Reader.candidateBlock_inside candidate))
      have there : l.reader.index[before.length]? = _ := index_split split
      have inside : block ∈ l.blocks := split ▸ List.mem_append_right _ List.mem_cons_self
      dsimp only
      rw [Cursor.bind_ok (Cursor.item_get there _), Cursor.bind_ok (holds.block_read split _ _ _),
        searchBlockEntries_absent fun e present => absent e (holds.mem_of_block inside present)]
      rfl
  · rfl

theorem get_answers (holds : l.Holds entries) {key : Bytes} (named : key ≠ []) :
    l.reader.get key = some (.ok (answer entries key)) := by
  unfold Reader.get answer
  cases found : entries.find? fun e => e.key = key with
  | none =>
    refine holds.lookUp_absent named fun e present same => ?_
    exact List.find?_eq_none.mp found e present (decide_eq_true same)
  | some e =>
    have picked := List.find?_some found
    have same : e.key = key := of_decide_eq_true picked
    rw [← same]
    exact holds.lookUp_present (List.mem_of_find?_eq_some found)

/-! ### Iteration -/

variable {k served : Nat} {current : List Entry}

theorem next_eq (it : Iterator) (clean : it.err = none) :
    it.next = it.advance (it.r.index.length - it.nextBlock + 1) := by
  rw [Iterator.next, clean]
  rfl

theorem next_inside (inside : served < current.length) :
    (Iterator.mk l.reader k current served none).next = some (⟨l.reader, k, current, served + 1, none⟩, true) := by
  rw [next_eq _ rfl, Iterator.advance, if_pos inside]

theorem next_block (holds : l.Holds entries) {before after : List (List Entry)} {block : List Entry}
    (split : l.blocks = before ++ block :: after) (used : current.length ≤ served) :
    (Iterator.mk l.reader before.length current served none).next =
      some (⟨l.reader, before.length + 1, block, 1, none⟩, true) := by
  have size : l.reader.index.length - before.length = after.length + 1 := by
    rw [Layout.reader, Layout.index, locate_length, split, List.length_append, List.length_cons]
    omega
  have there : l.reader.index[before.length]? = _ := index_split split
  have filled := List.length_pos_of_ne_nil
    (holds.filled block (split ▸ List.mem_append_right _ List.mem_cons_self))
  rw [next_eq _ rfl]
  dsimp only
  rw [size, Iterator.advance, if_neg (Nat.not_lt.mpr used)]
  dsimp only
  rw [there]
  dsimp only
  rw [Cursor.run, holds.block_read split]
  dsimp only [Reading.result]
  rw [Iterator.advance, if_pos filled]

theorem next_end (ended : l.blocks.length ≤ k) (used : current.length ≤ served) :
    (Iterator.mk l.reader k current served none).next = some (⟨l.reader, k, current, served, none⟩, false) := by
  have none : l.reader.index[k]? = none := by
    apply List.getElem?_eq_none
    rwa [Layout.reader, Layout.index, locate_length]
  rw [next_eq _ rfl, Iterator.advance, if_neg (Nat.not_lt.mpr used)]
  dsimp only
  rw [none]

theorem walk_rest (holds : l.Holds entries) {fuel : Nat}
    (enough : (current.drop served ++ (l.blocks.drop k).flatten).length < fuel) :
    ∃ last, (Iterator.mk l.reader k current served none).walk fuel =
      some (current.drop served ++ (l.blocks.drop k).flatten, last) ∧ last.err = none := by
  induction fuel generalizing k current served with
  | zero => exact absurd enough (Nat.not_lt_zero _)
  | succ fuel ih =>
    rw [Iterator.walk]
    by_cases inside : served < current.length
    · rw [List.drop_eq_getElem_cons inside, List.cons_append, List.length_cons] at enough
      obtain ⟨last, walked, clean⟩ := ih (Nat.lt_of_succ_lt_succ enough)
      refine ⟨last, ?_, clean⟩
      rw [next_inside inside]
      simp only [Option.bind_eq_bind, Option.bind_some, if_true, Iterator.entry, List.getElem?_eq_getElem inside,
        walked]
      rw [List.drop_eq_getElem_cons inside]
      rfl
    · have used : current.length ≤ served := Nat.not_lt.mp inside
      rw [List.drop_eq_nil_of_le used, List.nil_append] at enough ⊢
      by_cases ended : l.blocks.length ≤ k
      · refine ⟨⟨l.reader, k, current, served, none⟩, ?_, rfl⟩
        rw [next_end ended used, List.drop_eq_nil_of_le ended]
        rfl
      · have more : k < l.blocks.length := Nat.not_le.mp ended
        have split : l.blocks = l.blocks.take k ++ l.blocks[k] :: l.blocks.drop (k + 1) := by
          rw [← List.drop_eq_getElem_cons more, List.take_append_drop]
        have place : (l.blocks.take k).length = k := List.length_take_of_le (Nat.le_of_lt more)
        have moved := holds.next_block split used
        rw [place] at moved
        obtain ⟨first, rest, shape⟩ := List.exists_cons_of_ne_nil (holds.filled l.blocks[k] (List.getElem_mem more))
        rw [List.drop_eq_getElem_cons more, List.flatten_cons, shape, List.cons_append] at enough ⊢
        rw [shape] at moved
        obtain ⟨last, walked, clean⟩ := @ih (k + 1) 1 (first :: rest) (by
          rw [List.length_cons] at enough
          exact Nat.lt_of_succ_lt_succ enough)
        refine ⟨last, ?_, clean⟩
        rw [moved]
        simp only [Option.bind_eq_bind, Option.bind_some, if_true, Iterator.entry, List.getElem?_cons_zero, walked]
        rfl

end Layout.Holds

theorem flatten_length_le (blocks : List (List Entry)) :
    blocks.flatten.length ≤ (blocks.flatMap blockBytes).length := by
  have block : ∀ entries : List Entry, entries.length ≤ (entries.flatMap encodeEntry).length := by
    intro entries
    induction entries with
    | nil => exact Nat.le_refl _
    | cons e entries ih =>
      have filled := List.length_pos_of_ne_nil (encodeEntry_filled e)
      rw [List.length_cons, List.flatMap_cons, List.length_append]
      omega
  induction blocks with
  | nil => exact Nat.le_refl _
  | cons first blocks ih =>
    have size : (blockBytes first).length = (first.flatMap encodeEntry).length + 4 := Cursor.sealed_length _ _
    have short := block first
    rw [List.flatten_cons, List.length_append, List.flatMap_cons, List.length_append]
    omega

/-! ### The round trip -/

theorem answer_kept (adds : List Entry) (key : Bytes) : answer (adds.map Entry.kept) key = answer adds key := by
  unfold answer
  rw [List.find?_map]
  have same : ((fun e : Entry => decide (e.key = key)) ∘ Entry.kept) = fun e => decide (e.key = key) := rfl
  rw [same]
  cases adds.find? fun e => decide (e.key = key) with
  | none => rfl
  | some e =>
    simp only [Option.map_some, Entry.kept]
    cases e.tombstone <;> rfl

/-- For entries that `Add` accepts in order and a table that `Build` succeeds for: the file opens, a lookup of
any non-empty key answers from the entries, the iterator yields exactly the entries in order and ends without
an error, and the count and the outer keys match. -/
theorem table_round_trip (sizing : Nat → BloomSize) {adds : List Entry} {w : Writer} {file : Bytes}
    (added : newWriter.addAll adds = .ok w) (built : w.build sizing = some (.ok file)) :
    ∃ r, openTable file = some (.ok r) ∧ (∀ key, key ≠ [] → r.get key = some (.ok (answer adds key))) ∧
      (∀ fuel, adds.length < fuel → ∃ last, r.newIterator.walk fuel = some (adds.map Entry.kept, last) ∧
        last.err = none) ∧
      r.count.toNat = adds.length ∧ adds.head?.map Entry.key = some r.minKey ∧
      adds.getLast?.map Entry.key = some r.maxKey := by
  obtain ⟨sound, entries⟩ := Writer.Sound.start.addAll added
  rw [show newWriter.entries = [] from rfl, List.nil_append] at entries
  obtain ⟨l, holds, rfl⟩ := Writer.build_layout sound built
  rw [entries] at holds
  refine ⟨l.reader, holds.opens, fun key named => ?_, fun fuel enough => ?_, ?_, ?_, ?_⟩
  · rw [holds.get_answers named, answer_kept]
  · have walked := @Layout.Holds.walk_rest l _ 0 0 [] holds fuel (by
      rw [List.drop_nil, List.nil_append, List.drop_zero, holds.whole, List.length_map]
      exact enough)
    rw [List.drop_nil, List.nil_append, List.drop_zero, holds.whole] at walked
    exact walked
  · have short := flatten_length_le l.blocks
    have size := Layout.Holds.file_length l
    have fits := holds.fits
    rw [holds.whole, List.length_map] at short
    rw [Reader.count, Layout.reader, holds.count, List.length_map]
    exact Layout.Holds.toNat_ofNat (Nat.le_trans short (by unfold Layout.data at size; omega))
  · obtain ⟨first, isFirst, least⟩ := holds.least
    rw [List.head?_map] at isFirst
    obtain ⟨e, there, rfl⟩ := Option.map_eq_some_iff.mp isFirst
    rw [there]
    exact congrArg some least.symm
  · obtain ⟨last, isLast, greatest⟩ := holds.greatest
    rw [List.getLast?_map] at isLast
    obtain ⟨e, there, rfl⟩ := Option.map_eq_some_iff.mp isLast
    rw [there]
    exact congrArg some greatest.symm

def exampleSize : BloomSize := ⟨15, 64, by decide, by decide, by decide, by decide⟩

def exampleWriter : Writer := ⟨[⟨[97], [1, 2], false⟩, ⟨[98], [], true⟩, ⟨[99], [], false⟩], [99], true⟩

def exampleFile : Bytes :=
  match exampleWriter.build fun _ => exampleSize with
  | some (.ok file) => file
  | _ => []

theorem table_round_trip_three :
    ∃ r, openTable exampleFile = some (.ok r) ∧ r.get [97] = some (.ok ([1, 2], .found)) ∧
      r.get [98] = some (.ok ([], .tombstone)) ∧ r.get [99] = some (.ok ([], .found)) ∧
      r.get [97, 0] = some (.ok ([], .notFound)) ∧ r.count.toNat = 3 :=
  have added : newWriter.addAll [⟨[97], [1, 2], false⟩, ⟨[98], [3], true⟩, ⟨[99], [], false⟩] = .ok exampleWriter := by
    decide
  have built : (exampleWriter.build fun _ => exampleSize) = some (.ok exampleFile) := by decide +kernel
  have ⟨r, opened, found, _, count, _⟩ := table_round_trip (fun _ => exampleSize) added built
  ⟨r, opened, found [97] (by decide), found [98] (by decide), found [99] (by decide), found [97, 0] (by decide), count⟩

end ForgeDB.Storage.SSTable
