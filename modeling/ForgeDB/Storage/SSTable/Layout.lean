import ForgeDB.Storage.SSTable.Table

/-!
The file of a table described by its layout: the blocks the entries were divided into, the filter
and the summary. What the writer builds is the file of a layout that holds its entries, and opening
such a file gives the layout back.
-/

namespace ForgeDB.Storage.SSTable

abbrev Sorted (entries : List Entry) : Prop := entries.Pairwise fun first second => first.key < second.key

/-! ### What the writer accepts -/

structure Writer.Sound (w : Writer) : Prop where
  named : ∀ e ∈ w.entries, e.key ≠ []
  bare : ∀ e ∈ w.entries, e.tombstone = true → e.value = []
  sorted : Sorted w.entries
  last : if w.hasLast then ∀ e ∈ w.entries, e.key ≤ w.lastKey else w.entries = []

theorem Writer.Sound.start : newWriter.Sound :=
  ⟨fun _ present => absurd present List.not_mem_nil, fun _ present => absurd present List.not_mem_nil,
    List.Pairwise.nil, rfl⟩

theorem Writer.add_ok {w after : Writer} {e : Entry} (added : w.add e = .ok after) :
    e.key ≠ [] ∧ (w.hasLast = true → w.lastKey < e.key) ∧ after = ⟨w.entries ++ [e.kept], e.key, true⟩ := by
  unfold add at added
  split at added
  · cases added
  · rename_i named
    split at added
    · cases added
    · rename_i ordered
      cases added
      refine ⟨named, fun hasLast => ?_, rfl⟩
      rcases lt_trichotomy w.lastKey e.key with below | equal | above
      · exact below
      · exact absurd ⟨hasLast, by rw [equal, compareBytes_eq]; exact Ordering.noConfusion⟩ ordered
      · exact absurd ⟨hasLast, by rw [compareBytes_lt above]; exact Ordering.noConfusion⟩ ordered

theorem Entry.kept_bare (e : Entry) : e.kept.tombstone = true → e.kept.value = [] := fun dead => if_pos dead

theorem Writer.Sound.add {w after : Writer} {e : Entry} (sound : w.Sound) (added : w.add e = .ok after) :
    after.Sound := by
  obtain ⟨named, ordered, rfl⟩ := Writer.add_ok added
  have below : ∀ other ∈ w.entries, other.key < e.key := by
    intro other present
    have last := sound.last
    by_cases hasLast : w.hasLast = true
    · rw [if_pos hasLast] at last
      exact lt_of_le_of_lt (last other present) (ordered hasLast)
    · rw [if_neg hasLast] at last
      rw [last] at present
      cases present
  refine ⟨fun other present => ?_, fun other present => ?_, ?_, ?_⟩
  · rcases List.mem_append.mp present with old | new
    · exact sound.named other old
    · rw [List.mem_singleton.mp new]
      exact named
  · rcases List.mem_append.mp present with old | new
    · exact sound.bare other old
    · rw [List.mem_singleton.mp new]
      exact e.kept_bare
  · refine List.pairwise_append.mpr ⟨sound.sorted, List.pairwise_singleton _ _, fun other present new here => ?_⟩
    rw [List.mem_singleton.mp here]
    exact below other present
  · refine (if_pos rfl).mpr fun other present => ?_
    rcases List.mem_append.mp present with old | new
    · exact le_of_lt (below other old)
    · rw [List.mem_singleton.mp new]
      exact le_refl e.key

theorem Writer.Sound.addAll {w after : Writer} {adds : List Entry} (sound : w.Sound)
    (added : w.addAll adds = .ok after) : after.Sound ∧ after.entries = w.entries ++ adds.map Entry.kept := by
  induction adds generalizing w with
  | nil =>
    cases added
    exact ⟨sound, (List.append_nil _).symm⟩
  | cons e adds ih =>
    rw [Writer.addAll, List.foldlM_cons] at added
    cases first : w.add e with
    | error error =>
      rw [first] at added
      cases added
    | ok middle =>
      rw [first] at added
      obtain ⟨later, entries⟩ := ih (sound.add first) added
      obtain ⟨_, _, rfl⟩ := Writer.add_ok first
      exact ⟨later, by rw [entries, List.map_cons, List.append_assoc]; rfl⟩

/-! ### How the entries are divided into blocks -/

def firstKey : List Entry → Bytes
  | [] => []
  | e :: _ => e.key

def locate : Nat → List (List Entry) → List IndexEntry
  | _, [] => []
  | base, block :: blocks =>
    ⟨firstKey block, UInt64.ofNat base, UInt64.ofNat (blockBytes block).length⟩ ::
      locate (base + (blockBytes block).length) blocks

theorem locate_append (base : Nat) (before after : List (List Entry)) :
    locate base (before ++ after) = locate base before ++ locate (base + (before.flatMap blockBytes).length) after := by
  induction before generalizing base with
  | nil => rfl
  | cons block before ih =>
    rw [List.cons_append, locate, ih, locate, List.cons_append, List.flatMap_cons, List.length_append, Nat.add_assoc]

@[simp] theorem locate_length (base : Nat) (blocks : List (List Entry)) :
    (locate base blocks).length = blocks.length := by
  induction blocks generalizing base with
  | nil => rfl
  | cons block blocks ih => rw [locate, List.length_cons, ih, List.length_cons]

structure Builder.Packs (b : Builder) (blocks : List (List Entry)) : Prop where
  filled : ∀ block ∈ blocks, block ≠ []
  checked : ∀ block ∈ blocks, ∀ e ∈ block, checkEntry e = .ok ()
  body : b.body = blocks.flatMap blockBytes
  index : b.index = locate 0 blocks

namespace Builder.Packs

variable {b after : Builder} {blocks : List (List Entry)}

theorem flushBlock (packs : b.Packs blocks) (flushed : b.flushBlock = .ok after) :
    ∃ more, after.Packs more ∧ more.flatten = blocks.flatten ++ b.block ∧ after.block = [] := by
  unfold Builder.flushBlock at flushed
  split at flushed
  · rename_i empty
    cases flushed
    exact ⟨blocks, packs, by rw [empty, List.append_nil], empty⟩
  · rename_i first rest shape
    split at flushed
    · cases flushed
    · rename_i encoded done
      cases flushed
      obtain ⟨rfl, checked⟩ := checked_ok done
      refine ⟨blocks ++ [b.block], ⟨?_, ?_, ?_, ?_⟩, by rw [List.flatten_append, List.flatten_singleton], rfl⟩
      · intro block present
        rcases List.mem_append.mp present with old | new
        · exact packs.filled block old
        · rw [List.mem_singleton.mp new, shape]
          exact List.cons_ne_nil _ _
      · intro block present
        rcases List.mem_append.mp present with old | new
        · exact packs.checked block old
        · rw [List.mem_singleton.mp new]
          exact checked
      · simp only [packs.body, List.flatMap_append, List.flatMap_singleton]
      · rw [locate_append, ← packs.index, ← packs.body, shape, Nat.zero_add]
        rfl

theorem pack (packs : b.Packs blocks) {e : Entry} (packed : b.pack e = .ok after) :
    ∃ more, after.Packs more ∧ more.flatten ++ after.block = blocks.flatten ++ b.block ++ [e] := by
  unfold Builder.pack at packed
  dsimp only at packed
  have grown : Builder.Packs
      { b with block := b.block ++ [e], blockSize := b.blockSize + (entryHeaderSize + e.key.length + e.value.length) }
      blocks := ⟨packs.filled, packs.checked, packs.body, packs.index⟩
  split at packed
  · obtain ⟨more, later, whole, empty⟩ := grown.flushBlock packed
    exact ⟨more, later, by rw [empty, List.append_nil, whole, List.append_assoc]⟩
  · cases packed
    exact ⟨blocks, grown, (List.append_assoc _ _ _).symm⟩

theorem packAll (packs : b.Packs blocks) {entries : List Entry} (packed : entries.foldlM Builder.pack b = .ok after) :
    ∃ more, after.Packs more ∧ more.flatten ++ after.block = blocks.flatten ++ b.block ++ entries := by
  induction entries generalizing b blocks with
  | nil =>
    cases packed
    exact ⟨blocks, packs, (List.append_nil _).symm⟩
  | cons e entries ih =>
    rw [List.foldlM_cons] at packed
    cases first : b.pack e with
    | error error =>
      rw [first] at packed
      cases packed
    | ok middle =>
      rw [first] at packed
      obtain ⟨once, packs, whole⟩ := packs.pack first
      obtain ⟨more, later, all⟩ := ih packs packed
      exact ⟨more, later, by rw [all, whole, List.append_assoc]; rfl⟩

end Builder.Packs

/-! ### The layout of a file -/

structure Layout where
  blocks : List (List Entry)
  bloom : BloomFilter
  summary : Meta

namespace Layout

def data (l : Layout) : Bytes := l.blocks.flatMap blockBytes

def index (l : Layout) : List IndexEntry := locate 0 l.blocks

def file (l : Layout) : Bytes := l.data ++ sections l.data (indexBytes l.index) l.bloom l.summary

def reader (l : Layout) : Reader := ⟨l.file, l.index, l.bloom, l.summary⟩

structure Holds (l : Layout) (entries : List Entry) : Prop where
  whole : l.blocks.flatten = entries
  filled : ∀ block ∈ l.blocks, block ≠ []
  stored : ∀ e ∈ entries, e.Stored
  sorted : Sorted entries
  located : ∀ loc ∈ l.index, checkIndexEntry loc = .ok ()
  sized : l.bloom.Sized
  contained : ∀ e ∈ entries, l.bloom.mightContain e.key = true
  count : l.summary.numEntries = UInt64.ofNat entries.length
  least : ∃ first, entries.head? = some first ∧ l.summary.minKey = first.key
  greatest : ∃ last, entries.getLast? = some last ∧ l.summary.maxKey = last.key
  fits : l.file.length ≤ maxInt

end Layout

theorem Writer.build_layout {w : Writer} {sizing : Nat → BloomSize} {file : Bytes} (sound : w.Sound)
    (built : w.build sizing = some (.ok file)) : ∃ l : Layout, l.Holds w.entries ∧ file = l.file := by
  unfold build at built
  split at built
  · cases built
  rename_i out made
  split at built
  · cases built
  rename_i fits
  cases built
  unfold contents at made
  split at made
  · rename_i first rest last shape ending
    cases packed : w.entries.foldlM Builder.pack ⟨[], [], [], 0⟩ with
    | error error =>
      rw [packed] at made
      cases made
    | ok filling =>
      rw [packed] at made
      change (filling.flushBlock >>= _) = _ at made
      cases flushed : filling.flushBlock with
      | error error =>
        rw [flushed] at made
        cases made
      | ok b =>
        rw [flushed] at made
        dsimp only [Bind.bind, Except.bind] at made
        split at made
        · cases made
        rename_i encoded indexed
        have empty : Builder.Packs ⟨[], [], [], 0⟩ [] :=
          ⟨fun _ present => absurd present List.not_mem_nil, fun _ present => absurd present List.not_mem_nil, rfl, rfl⟩
        obtain ⟨some, packs, whole⟩ := empty.packAll packed
        obtain ⟨blocks, packs, all, _⟩ := packs.flushBlock flushed
        have flat : blocks.flatten = w.entries := all.trans whole
        obtain ⟨rfl, located⟩ := checked_ok indexed
        cases made
        let l : Layout := ⟨blocks,
          (w.entries.map Entry.key).foldl BloomFilter.add (newBloomFilter (sizing w.entries.length)),
          ⟨UInt64.ofNat w.entries.length, first.key, last.key⟩⟩
        have same : b.body ++ sections b.body (indexBytes b.index) l.bloom l.summary = l.file := by
          rw [Layout.file, Layout.data, Layout.index, packs.body, packs.index]
        have sized := newBloomFilter_sized (sizing w.entries.length)
        refine ⟨l, ⟨flat, packs.filled, fun e present => ?_, sound.sorted, ?_, sized.addAll _, fun e present => ?_, rfl,
          ⟨first, by rw [shape]; rfl, rfl⟩, ⟨last, ending, rfl⟩, ?_⟩, same⟩
        · rw [← flat] at present
          obtain ⟨block, inside, present⟩ := List.mem_flatten.mp present
          obtain ⟨named, keyFits, valueFits⟩ := checkEntry_ok (packs.checked block inside e present)
          have member : e ∈ w.entries := flat ▸ List.mem_flatten.mpr ⟨block, inside, present⟩
          exact ⟨named, keyFits, valueFits, sound.bare e member⟩
        · rw [Layout.index, ← packs.index]
          exact located
        · exact BloomFilter.mightContain_of_mem sized (List.mem_map.mpr ⟨e, present, rfl⟩)
        · rw [← same]
          exact Nat.not_lt.mp fits
  · cases made

namespace Layout.Holds

variable {l : Layout} {entries : List Entry}

theorem toNat_ofNat {size : Nat} (fits : size ≤ maxInt) : (UInt64.ofNat size).toNat = size :=
  UInt64.toNat_ofNat_of_lt' (Nat.lt_of_le_of_lt fits (by decide))

def footer (l : Layout) : Footer :=
  let indexLength := (indexBytes l.index).length
  let bloomLength := (encodeBloom l.bloom).length
  ⟨UInt64.ofNat l.data.length, UInt64.ofNat indexLength, UInt64.ofNat (l.data.length + indexLength),
    UInt64.ofNat bloomLength, UInt64.ofNat (l.data.length + indexLength + bloomLength),
    UInt64.ofNat (encodeMeta l.summary).length⟩

theorem file_eq (l : Layout) : l.file = l.data ++ (indexBytes l.index ++ (encodeBloom l.bloom ++
    (encodeMeta l.summary ++ encodeFooter (footer l)))) := rfl

theorem file_length (l : Layout) : l.file.length = l.data.length + (indexBytes l.index).length +
    (encodeBloom l.bloom).length + (encodeMeta l.summary).length + footerSize := by
  simp only [file_eq, List.length_append, encodeFooter_length]
  omega

theorem sealed_pos (body : Bytes) : 0 < (Cursor.sealed checksum body).length := by
  rw [Cursor.sealed_length]
  omega

theorem inside (holds : l.Holds entries) : (footer l).Inside (l.file.length - footerSize) := by
  have size := file_length l
  have fits := holds.fits
  have indexFilled : 0 < (indexBytes l.index).length := sealed_pos _
  have bloomFilled : 0 < (encodeBloom l.bloom).length := sealed_pos _
  have metaFilled : 0 < (encodeMeta l.summary).length := sealed_pos _
  have nonzero : ∀ {size : Nat}, 0 < size → size ≤ maxInt → UInt64.ofNat size ≠ 0 := by
    intro size positive small zero
    have number := congrArg UInt64.toNat zero
    rw [toNat_ofNat small] at number
    exact absurd number (Nat.ne_of_gt positive)
  refine ⟨nonzero indexFilled (by omega), ?_, nonzero bloomFilled (by omega), ?_, nonzero metaFilled (by omega), ?_⟩
  · rw [footer, toNat_ofNat (by omega), toNat_ofNat (by omega)]
    omega
  · rw [footer, toNat_ofNat (by omega), toNat_ofNat (by omega)]
    omega
  · rw [footer, toNat_ofNat (by omega), toNat_ofNat (by omega)]
    omega

theorem index_split {before after : List (List Entry)} {block : List Entry}
    (split : l.blocks = before ++ block :: after) :
    l.index[before.length]? = some ⟨firstKey block, UInt64.ofNat (before.flatMap blockBytes).length,
      UInt64.ofNat (blockBytes block).length⟩ := by
  rw [Layout.index, split, locate_append, List.getElem?_append_right (Nat.le_of_eq (locate_length _ _)), locate_length,
    Nat.sub_self, Nat.zero_add]
  rfl

theorem data_split {before after : List (List Entry)} {block : List Entry}
    (split : l.blocks = before ++ block :: after) :
    l.data = before.flatMap blockBytes ++ (blockBytes block ++ after.flatMap blockBytes) := by
  rw [Layout.data, split, List.flatMap_append, List.flatMap_cons]

theorem index_cases {i : Nat} {loc : IndexEntry} (there : l.index[i]? = some loc) :
    ∃ before block after, l.blocks = before ++ block :: after ∧ before.length = i := by
  have inside : i < l.blocks.length := by
    have bound := (List.getElem?_eq_some_iff.mp there).1
    rwa [Layout.index, locate_length] at bound
  exact ⟨l.blocks.take i, l.blocks[i], l.blocks.drop (i + 1),
    by rw [← List.drop_eq_getElem_cons inside, List.take_append_drop], List.length_take_of_le (Nat.le_of_lt inside)⟩

theorem block_read (holds : l.Holds entries) {before after : List (List Entry)} {block : List Entry}
    (split : l.blocks = before ++ block :: after) (unread : TableError) (undecoded : FormatError → TableError)
    (data : Bytes) :
    l.reader.block ⟨firstKey block, UInt64.ofNat (before.flatMap blockBytes).length,
      UInt64.ofNat (blockBytes block).length⟩ unread undecoded checksum data = .ok block [] := by
  have size := file_length l
  have fits := holds.fits
  have parts := congrArg List.length (data_split split)
  rw [List.length_append, List.length_append] at parts
  have stored : ∀ e ∈ block, e.Stored := by
    intro e present
    apply holds.stored
    rw [← holds.whole, split]
    exact List.mem_flatten.mpr ⟨block, List.mem_append_right _ List.mem_cons_self, present⟩
  have shape : l.reader.file = before.flatMap blockBytes ++ (blockBytes block ++ (after.flatMap blockBytes ++
      sections l.data (indexBytes l.index) l.bloom l.summary)) := by
    rw [Layout.reader, Layout.file]
    nth_rewrite 1 [data_split split]
    rw [List.append_assoc, List.append_assoc]
  rw [Reader.block, toNat_ofNat (by omega), toNat_ofNat (by omega), shape,
    Cursor.bind_ok (Cursor.readAt_append rfl rfl _ _), Cursor.wrap_ok (decodeBlock_blockBytes stored _)]

theorem readSection_ok {α : Type} {file front field tail : Bytes} (decode : Bytes → Cursor FormatError α) {value : α}
    (shape : file = front ++ (field ++ tail)) (before : front.length ≤ maxInt) (size : field.length ≤ maxInt)
    (decoded : ∀ data, ∃ rest, decode field data = .ok value rest) (part : Section) (data : Bytes) :
    ∃ rest, readSection file part (UInt64.ofNat front.length) (UInt64.ofNat field.length) decode data =
      .ok value rest := by
  obtain ⟨rest, decoded⟩ := decoded data
  refine ⟨rest, ?_⟩
  rw [readSection, toNat_ofNat before, toNat_ofNat size, shape, Cursor.bind_ok (Cursor.readAt_append rfl rfl _ _),
    Cursor.wrap_ok decoded]

theorem index_inside (holds : l.Holds entries) : ¬∃ loc ∈ l.index, (footer l).indexOffset < loc.blockOffset ∨
    (footer l).indexOffset - loc.blockOffset < loc.blockLength := by
  rintro ⟨loc, present, out⟩
  obtain ⟨i, there⟩ := List.mem_iff_getElem?.mp present
  obtain ⟨before, block, after, split, rfl⟩ := index_cases there
  rw [index_split split, Option.some.injEq] at there
  have size := file_length l
  have fits := holds.fits
  have parts := congrArg List.length (data_split split)
  rw [List.length_append, List.length_append] at parts
  have start : (footer l).indexOffset.toNat = l.data.length := toNat_ofNat (by omega)
  have offset : loc.blockOffset.toNat = (before.flatMap blockBytes).length := by
    rw [← there]
    exact toNat_ofNat (by omega)
  have length : loc.blockLength.toNat = (blockBytes block).length := by
    rw [← there]
    exact toNat_ofNat (by omega)
  have ordered : loc.blockOffset ≤ (footer l).indexOffset := by
    rw [UInt64.le_iff_toNat_le]
    omega
  rcases out with behind | long
  · exact absurd ordered (UInt64.not_le.mpr behind)
  · rw [UInt64.lt_iff_toNat_lt, UInt64.toNat_sub_of_le _ _ ordered] at long
    omega

theorem summary_read (holds : l.Holds entries) (data : Bytes) :
    ∃ rest, decodeMeta (encodeMeta l.summary) checksum data = .ok l.summary rest := by
  obtain ⟨first, isFirst, least⟩ := holds.least
  obtain ⟨last, isLast, greatest⟩ := holds.greatest
  have firstStored := holds.stored first (List.mem_of_head? isFirst)
  have lastStored := holds.stored last (List.mem_of_getLast? isLast)
  apply decodeMeta_encodeMeta
  · rw [least]
    exact firstStored.named
  · rw [least]
    exact firstStored.keyFits
  · rw [greatest]
    exact lastStored.named
  · rw [greatest]
    exact lastStored.keyFits

theorem footer_read (l : Layout) (rest : Bytes) :
    (Cursor.slice l.file (l.file.length - footerSize) l.file.length : Cursor TableError Bytes) rest =
      .ok (encodeFooter (footer l)) rest := by
  have size := file_length l
  have front : (l.data ++ (indexBytes l.index ++ (encodeBloom l.bloom ++ encodeMeta l.summary))).length =
      l.file.length - footerSize := by
    rw [size, Nat.add_sub_cancel]
    simp only [List.length_append]
    omega
  have split : l.file = (l.data ++ (indexBytes l.index ++ (encodeBloom l.bloom ++ encodeMeta l.summary))) ++
      (encodeFooter (footer l) ++ []) := by
    simp only [file_eq, List.append_assoc, List.append_nil]
  have within : l.file.length - footerSize + (encodeFooter (footer l)).length = l.file.length := by
    rw [encodeFooter_length, size, Nat.add_sub_cancel]
  generalize l.file.length = last at front within
  rw [split]
  exact Cursor.slice_append front within rest

theorem opens (holds : l.Holds entries) : openTable l.file = some (.ok l.reader) := by
  have size := file_length l
  have fits := holds.fits
  have bloomShape : l.file = (l.data ++ indexBytes l.index) ++ (encodeBloom l.bloom ++ (encodeMeta l.summary ++
      encodeFooter (footer l))) := by
    rw [file_eq, List.append_assoc]
  have metaShape : l.file = (l.data ++ indexBytes l.index ++ encodeBloom l.bloom) ++ (encodeMeta l.summary ++
      encodeFooter (footer l)) := by
    rw [bloomShape, List.append_assoc, List.append_assoc, List.append_assoc]
  have bloomStart : (l.data ++ indexBytes l.index).length = l.data.length + (indexBytes l.index).length :=
    List.length_append
  have metaStart : (l.data ++ indexBytes l.index ++ encodeBloom l.bloom).length =
      l.data.length + (indexBytes l.index).length + (encodeBloom l.bloom).length := by
    rw [List.length_append, bloomStart]
  obtain ⟨first, index⟩ := readSection_ok (fun buf => decodeIndex buf) (file_eq l) (by omega) (by omega)
    (fun data => ⟨_, decodeIndex_indexBytes holds.located data⟩) .index []
  obtain ⟨second, bloom⟩ := readSection_ok (fun buf => decodeBloom buf) bloomShape (by omega) (by omega)
    (decodeBloom_encodeBloom holds.sized) .bloom first
  obtain ⟨third, summary⟩ := readSection_ok (fun buf => decodeMeta buf) metaShape (by omega) (by omega)
    holds.summary_read .metadata second
  rw [bloomStart] at bloom
  rw [metaStart] at summary
  change readSection l.file .index (footer l).indexOffset (footer l).indexLength (decodeIndex ·) [] = _ at index
  change readSection l.file .bloom (footer l).bloomOffset (footer l).bloomLength (decodeBloom ·) first = _ at bloom
  change readSection l.file .metadata (footer l).metaOffset (footer l).metaLength (fun buf => decodeMeta buf) second = _
    at summary
  have done : readTable l.file checksum l.file = .ok l.reader third := by
    rw [readTable, Cursor.bind_ok (Cursor.refuse_not (by omega) _ _), Cursor.bind_ok (footer_read l _),
      Cursor.bind_ok (Cursor.wrap_ok (decodeFooter_encodeFooter holds.inside _)), Cursor.bind_ok index,
      Cursor.bind_ok bloom, Cursor.bind_ok summary, Cursor.bind_ok (Cursor.refuse_not holds.index_inside _ _)]
    rfl
  rw [openTable, Cursor.run, done]
  rfl

end Layout.Holds

end ForgeDB.Storage.SSTable
