import ForgeDB.Storage.SSTable.Table

/-!
Reading any file whatever, with any checksum. Opening it fails or gives a reader; from then on no access is
outside the bytes it is made to, no read is outside the file, and every loop ends.
-/

namespace ForgeDB.Storage.SSTable

open Cursor

/-! ### Searches with every access checked -/

def searchBlockEntriesChecked (entries : List Entry) (key : Bytes) : Option (Option Entry) := do
  let compare := fun mid => (entries[mid]?).map fun e => compareBytes e.key key
  match ← probeChecked compare entries.length 0 entries.length with
  | none => some none
  | some mid => (entries[mid]?).map some

/-- The loop over the hashes, which looks no further than the first bit that is not set. -/
def hasBitsChecked (bits : Bytes) : List Nat → Option Bool
  | [] => some true
  | idx :: later =>
    match bits[idx / 8]? with
    | none => none
    | some byte => if byte &&& bitMask idx = 0 then some false else hasBitsChecked bits later

def BloomFilter.mightContainChecked (b : BloomFilter) (key : Bytes) : Option Bool :=
  if b.numBits = 0 ∧ b.numHashes ≠ 0 then none else hasBitsChecked b.bits (b.probes key)

namespace Reader

def candidateBlockChecked (r : Reader) (key : Bytes) : Option (Option Nat) :=
  let notAbove := fun mid => (r.index[mid]?).map fun e => decide (compareBytes e.firstKey key ≠ .gt)
  match bisectChecked notAbove r.index.length 0 r.index.length with
  | none => none
  | some 0 => some none
  | some (lo + 1) => some (some lo)

def lookUpChecked (r : Reader) (key : Bytes) (crc : Bytes → UInt32) : Cursor TableError (Bytes × Result) := do
  refuse (key = []) .emptyLookup
  let contained ← access (r.bloom.mightContainChecked key)
  if contained then
    match ← access (r.candidateBlockChecked key) with
    | none => pure ([], .notFound)
    | some i => do
      let loc ← item r.index i
      let entries ← r.block loc (.readBlock loc.blockOffset.toNat) (.decodeBlock loc.blockOffset.toNat) crc
      match ← access (searchBlockEntriesChecked entries key) with
      | none => pure ([], .notFound)
      | some e => if e.tombstone then pure ([], .tombstone) else pure (e.value, .found)
  else pure ([], .notFound)

def getChecked (r : Reader) (key : Bytes) (crc : Bytes → UInt32) : Option (Except TableError (Bytes × Result)) :=
  (r.lookUpChecked key crc).run []

end Reader

/-! ### The accesses lie inside -/

theorem searchBlockEntriesChecked_of_compare {entries : List Entry} {key : Bytes} {compare : Nat → Ordering}
    (inside : ∀ i < entries.length, ((entries[i]?).map fun e => compareBytes e.key key) = some (compare i)) :
    searchBlockEntriesChecked entries key =
      some ((probe compare entries.length 0 entries.length).bind fun mid => entries[mid]?) := by
  have probes := probeChecked_eq (Nat.le_of_eq (Nat.sub_zero _)) inside
  unfold searchBlockEntriesChecked
  simp only [probes, Option.bind_eq_bind, Option.bind_some]
  cases found : probe compare entries.length 0 entries.length with
  | none => rfl
  | some mid =>
    have inside := (probe_inside found).1
    simp only [Option.bind_some, List.getElem?_eq_getElem inside, Option.map_some]

theorem searchBlockEntriesChecked_eq (entries : List Entry) (key : Bytes) :
    searchBlockEntriesChecked entries key = some (searchBlockEntries entries key) := by
  refine searchBlockEntriesChecked_of_compare fun i inside => ?_
  rw [List.getElem?_eq_getElem inside]
  rfl

theorem searchBlockEntries_some {entries : List Entry} {key : Bytes} {e : Entry}
    (found : searchBlockEntries entries key = some e) : e ∈ entries ∧ e.key = key := by
  unfold searchBlockEntries at found
  obtain ⟨mid, probed, there⟩ := Option.bind_eq_some_iff.mp found
  have equal := (probe_inside probed).2
  rw [there] at equal
  exact ⟨List.mem_of_getElem? there, eq_of_compareBytes equal⟩

theorem hasBitsChecked_eq {bits : Bytes} {positions : List Nat} (inside : ∀ idx ∈ positions, idx / 8 < bits.length) :
    hasBitsChecked bits positions = some (positions.all (hasBit bits)) := by
  induction positions with
  | nil => rfl
  | cons idx later ih =>
    have tail := ih fun other present => inside other (List.mem_cons_of_mem _ present)
    obtain ⟨byte, here⟩ : ∃ byte, bits[idx / 8]? = some byte :=
      ⟨_, List.getElem?_eq_getElem (inside idx List.mem_cons_self)⟩
    rw [hasBitsChecked, here, List.all_cons, hasBit, here]
    by_cases clear : byte &&& bitMask idx = 0
    · simp only [clear, if_true, ne_eq, not_true, decide_false, Bool.false_and]
    · simp only [clear, if_false, ne_eq, not_false_eq_true, decide_true, Bool.true_and, tail]

theorem BloomFilter.mightContainChecked_eq {b : BloomFilter} (sized : b.Sized) (key : Bytes) :
    b.mightContainChecked key = some (b.mightContain key) := by
  rw [mightContainChecked, if_neg fun zero => sized.someBits zero.1]
  exact hasBitsChecked_eq fun idx present => probes_inside sized present

namespace Reader

theorem candidateBlockChecked_eq (r : Reader) (key : Bytes) :
    r.candidateBlockChecked key = some (r.candidateBlock key) := by
  unfold candidateBlockChecked candidateBlock
  dsimp only
  rw [bisectChecked_eq (Nat.le_of_eq (Nat.sub_zero _)) fun i inside => ?_]
  · generalize bisect _ r.index.length 0 r.index.length = lo
    cases lo <;> rfl
  · rw [List.getElem?_eq_getElem inside]
    rfl

end Reader

/-! ### The sections -/

section

variable {data : Bytes}

theorem readEntry_ends (off : Nat) (data : Bytes) :
    (readEntry off).Ends data (fun _ rest => rest.length < data.length) fun _ => True := by
  refine Ends.bind (Ends.need (fun _ => trivial) fun long => ?_)
  rw [entryHeaderSize] at long
  refine Ends.bind (Ends.byte (by omega) fun flags first shape => ?_)
  subst shape
  rw [List.length_cons] at long
  refine Ends.bind (Ends.u32 (by omega) fun keyLen second shape _ => ?_)
  subst shape
  rw [List.length_append, putUint32_length] at long
  refine Ends.bind (Ends.u32 (by omega) fun valLen third shape _ => ?_)
  subst shape
  refine Ends.bind (Ends.refuse (fun _ => trivial) fun _ => ?_)
  refine Ends.bind (Ends.refuse (fun _ => trivial) fun _ => ?_)
  refine Ends.bind (Ends.need (fun _ => trivial) fun keyThere => ?_)
  refine Ends.bind (Ends.bytes keyThere fun key fourth shape _ => ?_)
  subst shape
  refine Ends.bind (Ends.refuse (fun _ => trivial) fun _ => ?_)
  refine Ends.bind (Ends.need (fun _ => trivial) fun valueThere => ?_)
  refine Ends.bind (Ends.bytes valueThere fun value last shape _ => ?_)
  subst shape
  apply Ends.pure
  simp only [List.length_cons, List.length_append]
  omega

theorem decodeBlock_ends (buf : Bytes) (crc : Bytes → UInt32) (data : Bytes) :
    (SSTable.decodeBlock buf crc).Ends data (fun _ _ => True) fun _ => True := by
  refine Ends.bind (Ends.refuse (fun _ => trivial) fun long => ?_)
  refine Ends.bind (Ends.checkSealed (Nat.not_lt.mp long) trivial fun payload _ => ?_)
  exact Ends.bind (Ends.seek (Ends.untilEnd readEntry_ends (Nat.le_refl _) 0))

theorem readIndexEntry_ends (off : Nat) (data : Bytes) :
    (readIndexEntry off).Ends data (fun _ rest => rest.length < data.length) fun _ => True := by
  refine Ends.bind (Ends.need (fun _ => trivial) fun long => ?_)
  rw [indexEntryHeaderSize] at long
  refine Ends.bind (Ends.u32 (by omega) fun keyLen first shape _ => ?_)
  subst shape
  rw [List.length_append, putUint32_length] at long
  refine Ends.bind (Ends.u64 (by omega) fun blockOffset second shape => ?_)
  subst shape
  rw [List.length_append, putUint64_length] at long
  refine Ends.bind (Ends.u64 (by omega) fun blockLength third shape => ?_)
  subst shape
  refine Ends.bind (Ends.refuse (fun _ => trivial) fun _ => ?_)
  refine Ends.bind (Ends.need (fun _ => trivial) fun keyThere => ?_)
  refine Ends.bind (Ends.bytes keyThere fun key last shape _ => ?_)
  subst shape
  apply Ends.pure
  simp only [List.length_append, putUint32_length]
  omega

theorem decodeIndex_ends (buf : Bytes) (crc : Bytes → UInt32) (data : Bytes) :
    (decodeIndex buf crc).Ends data (fun _ _ => True) fun _ => True := by
  refine Ends.bind (Ends.refuse (fun _ => trivial) fun long => ?_)
  refine Ends.bind (Ends.checkSealed (Nat.not_lt.mp long) trivial fun payload _ => ?_)
  exact Ends.bind (Ends.seek (Ends.untilEnd readIndexEntry_ends (Nat.le_refl _) 0))

theorem decodeBloom_ends (buf : Bytes) (crc : Bytes → UInt32) (data : Bytes) :
    (decodeBloom buf crc).Ends data (fun b _ => b.Sized) fun _ => True := by
  refine Ends.bind (Ends.refuse (fun _ => trivial) fun long => ?_)
  rw [Nat.not_lt, bloomHeaderSize] at long
  refine Ends.bind (Ends.seek ?_)
  refine Ends.bind (Ends.byte (by omega) fun numHashes first shape => ?_)
  have left := congrArg List.length shape
  rw [List.length_cons] at left
  refine Ends.bind (Ends.u64 (by omega) fun numBits second shape => ?_)
  subst shape
  rw [List.length_append, putUint64_length] at left
  refine Ends.bind (Ends.u32 (by omega) fun bitsLen third shape _ => ?_)
  refine Ends.bind (Ends.refuse (fun _ => trivial) fun hashes => ?_)
  refine Ends.bind (Ends.refuse (fun _ => trivial) fun bits => ?_)
  refine Ends.bind (Ends.refuse (fun _ => trivial) fun bytes => ?_)
  refine Ends.bind (Ends.refuse (fun _ => trivial) fun size => ?_)
  rw [not_not] at bytes size
  refine Ends.bind (Ends.checkSealed (by omega) trivial fun _ _ => ?_)
  refine Ends.bind (Ends.slice (by omega) (by omega) ?_)
  rw [not_or, UInt8.lt_iff_toNat_lt, Nat.not_lt] at hashes
  rw [not_or, Nat.not_lt] at bits
  refine Ends.pure ⟨?_, hashes.2, bits.1, bits.2, ?_⟩
  · exact Nat.pos_of_ne_zero fun zero => hashes.1 (UInt8.toNat_inj.mp zero)
  · rw [List.length_drop, List.length_take_of_le (by omega)]
    exact (Nat.add_sub_cancel_left ..).trans bytes

theorem readKey_ends (badLength : Nat → FormatError) (data : Bytes) :
    (readKey badLength).Ends data (fun _ _ => True) fun _ => True := by
  refine Ends.bind (Ends.need (fun _ => trivial) fun long => ?_)
  refine Ends.bind (Ends.u32 long fun keyLen rest _ _ => ?_)
  refine Ends.bind (Ends.refuse (fun _ => trivial) fun _ => ?_)
  refine Ends.bind (Ends.need (fun _ => trivial) fun there => ?_)
  exact Ends.bytes there fun _ _ _ _ => trivial

theorem decodeMeta_ends (buf : Bytes) (crc : Bytes → UInt32) (data : Bytes) :
    (decodeMeta buf crc).Ends data (fun _ _ => True) fun _ => True := by
  refine Ends.bind (Ends.seek ?_)
  refine Ends.bind (Ends.need (fun _ => trivial) fun long => ?_)
  refine Ends.bind (Ends.u64 long fun numEntries first _ => ?_)
  refine Ends.bind ((readKey_ends _ first).mono fun minKey second _ => ?_)
  refine Ends.bind ((readKey_ends _ second).mono fun maxKey third _ => ?_)
  refine Ends.bind (Ends.need (fun _ => trivial) fun _ => ?_)
  refine Ends.bind (Ends.left ?_)
  refine Ends.bind (Ends.refuse (fun _ => trivial) fun _ => ?_)
  exact Ends.bind (Ends.checkSealed (by omega) trivial fun _ _ => trivial)

theorem validateSection_ends {part : Section} {offset length : UInt64} {bodySize : Nat} {post : Unit → Bytes → Prop}
    (inside : length ≠ 0 → offset.toNat + length.toNat ≤ bodySize → post () data) :
    (validateSection part offset length bodySize).Ends data post fun _ => True := by
  refine Ends.bind (Ends.refuse (fun _ => trivial) fun filled => ?_)
  refine Ends.bind (Ends.refuse (fun _ => trivial) fun start => ?_)
  exact Ends.refuse (fun _ => trivial) fun fits => inside filled (by omega)

theorem decodeFooter_ends {buf : Bytes} (size : buf.length = footerSize) (bodySize : Nat) (crc : Bytes → UInt32)
    (data : Bytes) : (decodeFooter buf bodySize crc).Ends data (fun f _ => f.Inside bodySize) fun _ => True := by
  rw [footerSize] at size
  refine Ends.bind (Ends.refuse (fun _ => trivial) fun _ => ?_)
  refine Ends.bind (Ends.header (by omega) trivial (fun _ => trivial) fun _ => ?_)
  refine Ends.bind (Ends.checkSealed (by omega) trivial fun _ _ => ?_)
  refine Ends.bind (Ends.slice (by omega) (by omega) ?_)
  have fields : ((buf.take 60).drop 12).length = 48 := by
    rw [List.length_drop, List.length_take_of_le (by omega)]
  generalize (buf.take 60).drop 12 = rest at fields
  refine Ends.bind (Ends.seek ?_)
  refine Ends.bind (Ends.u64 (by omega) fun indexOffset first shape => ?_)
  subst shape
  rw [List.length_append, putUint64_length] at fields
  refine Ends.bind (Ends.u64 (by omega) fun indexLength second shape => ?_)
  subst shape
  rw [List.length_append, putUint64_length] at fields
  refine Ends.bind (Ends.u64 (by omega) fun bloomOffset third shape => ?_)
  subst shape
  rw [List.length_append, putUint64_length] at fields
  refine Ends.bind (Ends.u64 (by omega) fun bloomLength fourth shape => ?_)
  subst shape
  rw [List.length_append, putUint64_length] at fields
  refine Ends.bind (Ends.u64 (by omega) fun metaOffset fifth shape => ?_)
  subst shape
  rw [List.length_append, putUint64_length] at fields
  refine Ends.bind (Ends.u64 (by omega) fun metaLength sixth _ => ?_)
  refine Ends.bind (validateSection_ends fun indexFilled index => ?_)
  refine Ends.bind (validateSection_ends fun bloomFilled bloom => ?_)
  refine Ends.bind (validateSection_ends fun metaFilled metadata => ?_)
  exact Ends.pure ⟨indexFilled, index, bloomFilled, bloom, metaFilled, metadata⟩

end

/-! ### Opening -/

def TableError.notReading : TableError → Bool
  | readSection _ | readBlock _ | iteratorRead _ => false
  | _ => true

/-- The sections that the footer names lie in the file before it, the blocks before the index, and the filter has its
bits. -/
structure Reader.Within (r : Reader) (whole : Bytes) (crc : Bytes → UInt32) (ft : Footer) : Prop where
  file : r.file = whole
  footer : ∃ data rest, decodeFooter (whole.drop (whole.length - footerSize)) (whole.length - footerSize) crc data =
    .ok ft rest
  sections : ft.Inside (whole.length - footerSize)
  blocks : ∀ loc ∈ r.index, loc.blockOffset.toNat + loc.blockLength.toNat ≤ ft.indexOffset.toNat
  sized : r.bloom.Sized

theorem readSection_ends {α : Type} {file : Bytes} {part : Section} {offset length : UInt64} {bodySize : Nat}
    {decode : Bytes → Cursor FormatError α} {post : α → Bytes → Prop} {data : Bytes}
    (inside : offset.toNat + length.toNat ≤ file.length - bodySize)
    (decodes : ∀ buf, (decode buf).Ends data post fun _ => True) :
    (SSTable.readSection file part offset length decode).Ends data post fun error => error.notReading = true := by
  refine Ends.bind (Ends.readAt (by omega) fun _ => Ends.wrap ?_)
  exact (decodes _).mono_fails fun _ _ => rfl

theorem readTable_ends (file : Bytes) (crc : Bytes → UInt32) :
    (readTable file crc).Ends file (fun r _ => ∃ ft, r.Within file crc ft) fun error => error.notReading = true := by
  refine Ends.bind (Ends.refuse (fun _ => rfl) fun long => ?_)
  rw [Nat.not_lt] at long
  refine Ends.bind (Ends.slice (Nat.sub_le _ _) (Nat.le_refl _) ?_)
  rw [List.take_length]
  have size : (file.drop (file.length - footerSize)).length = footerSize := by
    rw [List.length_drop]
    omega
  have footer := (decodeFooter_ends size (file.length - footerSize) crc file).read
  refine Ends.bind (Ends.wrap ((footer.mono_fails fun _ _ => rfl).mono fun ft rest decoded => ?_))
  obtain ⟨decoded, sections⟩ := decoded
  refine Ends.bind
    ((readSection_ends sections.index fun buf => decodeIndex_ends buf crc _).mono fun index first _ => ?_)
  refine Ends.bind
    ((readSection_ends sections.bloom fun buf => decodeBloom_ends buf crc _).mono fun bloom second sized => ?_)
  refine Ends.bind
    ((readSection_ends sections.metadata fun buf => decodeMeta_ends buf crc _).mono fun summary third _ => ?_)
  refine Ends.bind (Ends.refuse (fun _ => rfl) fun outside => ?_)
  refine Ends.pure ⟨ft, rfl, ⟨file, rest, decoded⟩, sections, fun loc present => ?_, sized⟩
  have near : ¬(ft.indexOffset < loc.blockOffset ∨ ft.indexOffset - loc.blockOffset < loc.blockLength) :=
    fun far => outside ⟨loc, present, far⟩
  rw [not_or, UInt64.not_lt, UInt64.not_lt] at near
  obtain ⟨ordered, fits⟩ := near
  rw [UInt64.le_iff_toNat_le, UInt64.toNat_sub_of_le _ _ ordered] at fits
  rw [UInt64.le_iff_toNat_le] at ordered
  omega

/-! ### Blocks, lookups and the iterator -/

def Reader.Holds (r : Reader) (crc : Bytes → UInt32) (loc : IndexEntry) (entries : List Entry) : Prop :=
  ∃ unread undecoded rest, r.block loc unread undecoded crc [] = .ok entries rest

theorem Reader.Holds.run {r : Reader} {crc : Bytes → UInt32} {loc : IndexEntry} {entries : List Entry}
    (holds : r.Holds crc loc entries) (unread : TableError) (undecoded : FormatError → TableError) :
    (r.block loc unread undecoded crc).run [] = some (.ok entries) := by
  obtain ⟨otherUnread, otherUndecoded, rest, read⟩ := holds
  unfold Reader.block at read
  rw [Cursor.run, Reader.block]
  by_cases inside : loc.blockOffset.toNat + loc.blockLength.toNat ≤ r.file.length
  · rw [Cursor.bind_ok (if_pos inside)] at read ⊢
    unfold wrap at read ⊢
    cases decoded : SSTable.decodeBlock ((r.file.drop loc.blockOffset.toNat).take loc.blockLength.toNat) crc [] with
    | ok value left =>
      rw [decoded] at read
      cases read
      rfl
    | error error | outside =>
      rw [decoded] at read
      cases read
  · rw [Cursor.bind_error (if_neg inside)] at read
    cases read

namespace Reader.Within

variable {r : Reader} {file : Bytes} {crc : Bytes → UInt32} {ft : Footer}

theorem block_ends (within : r.Within file crc ft) {loc : IndexEntry} (present : loc ∈ r.index) {unread : TableError}
    {undecoded : FormatError → TableError} (decoding : ∀ error, (undecoded error).notReading = true) :
    (r.block loc unread undecoded crc).Ends [] (fun entries _ => r.Holds crc loc entries)
      fun error => error.notReading = true := by
  have inside := within.blocks loc present
  have before := within.sections.index
  have reads : (r.block loc unread undecoded crc).Ends [] (fun _ _ => True) fun error => error.notReading = true := by
    refine Ends.bind (Ends.readAt (by rw [within.file]; omega) fun _ => Ends.wrap ?_)
    exact (decodeBlock_ends _ crc []).mono_fails fun error _ => decoding error
  exact reads.read.mono fun entries rest read => ⟨unread, undecoded, rest, read.1⟩

theorem lookUp_ends (within : r.Within file crc ft) (key : Bytes) :
    (r.lookUpChecked key crc).Ends [] (fun read _ => read.2 = .found → ∃ loc ∈ r.index, ∃ entries,
        r.Holds crc loc entries ∧ ∃ e ∈ entries, e.key = key ∧ e.value = read.1 ∧ e.tombstone = false)
      fun error => error.notReading = true := by
  refine Ends.bind (Ends.refuse (fun _ => rfl) fun _ => ?_)
  refine Ends.bind (Ends.access (BloomFilter.mightContainChecked_eq within.sized key) ?_)
  split
  · refine Ends.bind (Ends.access (r.candidateBlockChecked_eq key) ?_)
    split
    · exact Ends.pure (nomatch ·)
    · rename_i i candidate
      obtain ⟨loc, there⟩ : ∃ loc, r.index[i]? = some loc :=
        ⟨_, List.getElem?_eq_getElem (candidateBlock_inside candidate)⟩
      have present := List.mem_of_getElem? there
      refine Ends.bind (Ends.item there ?_)
      refine Ends.bind ((within.block_ends present fun _ => rfl).mono fun entries rest holds => ?_)
      refine Ends.bind (Ends.access (searchBlockEntriesChecked_eq entries key) ?_)
      split
      · exact Ends.pure (nomatch ·)
      · rename_i e found
        obtain ⟨inside, named⟩ := searchBlockEntries_some found
        split
        · exact Ends.pure (nomatch ·)
        · rename_i live
          exact Ends.pure fun _ => ⟨loc, present, entries, holds, e, inside, named, rfl, (Bool.not_eq_true _).mp live⟩
  · exact Ends.pure (nomatch ·)

theorem getChecked_eq (within : r.Within file crc ft) (key : Bytes) : r.getChecked key crc = r.get key crc := by
  unfold getChecked Reader.get lookUpChecked
  simp only [BloomFilter.mightContainChecked_eq within.sized, r.candidateBlockChecked_eq, access_bind,
    searchBlockEntriesChecked_eq]
  rfl

end Reader.Within

namespace Iterator

variable {it : Iterator} {crc : Bytes → UInt32}

theorem next_serve (clean : it.err = none) (more : it.served < it.entries.length) :
    it.next crc = some ({ it with served := it.served + 1 }, true) := by
  simp only [next, clean, Option.isSome_none, Bool.false_eq_true, if_false, advance, if_pos more]

theorem next_done (clean : it.err = none) (used : it.entries.length ≤ it.served)
    (last : it.r.index[it.nextBlock]? = none) : it.next crc = some (it, false) := by
  simp only [next, clean, Option.isSome_none, Bool.false_eq_true, if_false, advance, if_neg (Nat.not_lt.mpr used), last]

theorem next_fail (clean : it.err = none) (used : it.entries.length ≤ it.served) {loc : IndexEntry}
    (there : it.r.index[it.nextBlock]? = some loc) {error : TableError}
    (failed : (it.r.block loc (.iteratorRead loc.blockOffset.toNat) (.iteratorDecode loc.blockOffset.toNat)
      crc).run [] =
      some (.error error)) :
    it.next crc = some ({ it with nextBlock := it.nextBlock + 1, err := some error }, false) := by
  simp only [next, clean, Option.isSome_none, Bool.false_eq_true, if_false, advance, if_neg (Nat.not_lt.mpr used),
    there, failed]

theorem next_load (clean : it.err = none) (used : it.entries.length ≤ it.served) {loc : IndexEntry}
    (there : it.r.index[it.nextBlock]? = some loc) {entries : List Entry} (holds : it.r.Holds crc loc entries) :
    it.next crc = ({ it with nextBlock := it.nextBlock + 1, entries := entries, served := 0 } : Iterator).next crc := by
  have inside : it.nextBlock < it.r.index.length := (List.getElem?_eq_some_iff.mp there).1
  have rounds : it.r.index.length - it.nextBlock = it.r.index.length - (it.nextBlock + 1) + 1 := by omega
  unfold next
  simp only [clean, Option.isSome_none, Bool.false_eq_true, if_false, rounds]
  rw [advance]
  simp only [if_neg (Nat.not_lt.mpr used), there, holds.run, clean]

theorem walk_congr {other : Iterator} (same : it.next crc = other.next crc) (fuel : Nat) :
    it.walk fuel crc = other.walk fuel crc := by
  cases fuel with
  | zero => rfl
  | succ fuel => simp only [walk, same]

structure Ends (it : Iterator) (crc : Bytes → UInt32) (walked : List Entry) (last : Iterator) : Prop where
  walks : ∃ bound, ∀ fuel, bound ≤ fuel → it.walk fuel crc = some (walked, last)
  reads : ∀ error, last.err = some error → error.notReading = true
  current : last.err = none → ∀ e ∈ it.entries.drop it.served, e ∈ walked
  blocks : last.err = none → ∀ i loc, it.nextBlock ≤ i → it.r.index[i]? = some loc →
    ∃ entries, it.r.Holds crc loc entries ∧ ∀ e ∈ entries, e ∈ walked

theorem Ends.of_next {other last : Iterator} {walked : List Entry} (same : it.next crc = other.next crc)
    (ends : other.Ends crc walked last) : ∃ bound, ∀ fuel, bound ≤ fuel → it.walk fuel crc = some (walked, last) := by
  obtain ⟨bound, walks⟩ := ends.walks
  exact ⟨bound, fun fuel enough => (walk_congr same fuel).trans (walks fuel enough)⟩

theorem walk_end {last : Iterator} (ended : it.next crc = some (last, false)) :
    ∃ bound, ∀ fuel, bound ≤ fuel → it.walk fuel crc = some ([], last) := by
  refine ⟨1, fun fuel enough => ?_⟩
  obtain ⟨fuel, rfl⟩ := Nat.exists_eq_add_of_le' enough
  simp only [walk, ended, Option.bind_eq_bind, Option.bind_some, Bool.false_eq_true, if_false]
  rfl

theorem Ends.serve {walked : List Entry} {last : Iterator} (clean : it.err = none)
    (more : it.served < it.entries.length)
    (ends : ({ it with served := it.served + 1 } : Iterator).Ends crc walked last) :
    it.Ends crc (it.entries[it.served] :: walked) last := by
  obtain ⟨bound, walks⟩ := ends.walks
  refine ⟨⟨bound + 1, fun fuel enough => ?_⟩, ends.reads, fun done e present => ?_, fun done i loc from_ there => ?_⟩
  · obtain ⟨fuel, rfl⟩ := Nat.exists_eq_add_of_le' enough
    have entry : ({ it with served := it.served + 1 } : Iterator).entry = some it.entries[it.served] :=
      List.getElem?_eq_getElem more
    rw [show fuel + (bound + 1) = fuel + bound + 1 from rfl, walk, next_serve clean more]
    simp only [Option.bind_eq_bind, Option.bind_some, if_true, entry, walks (fuel + bound) (Nat.le_add_left _ _)]
    rfl
  · rw [List.drop_eq_getElem_cons more] at present
    rcases List.mem_cons.mp present with rfl | later
    · exact List.mem_cons_self
    · exact List.mem_cons_of_mem _ (ends.current done e later)
  · obtain ⟨entries, holds, inside⟩ := ends.blocks done i loc from_ there
    exact ⟨entries, holds, fun e present => List.mem_cons_of_mem _ (inside e present)⟩

theorem Ends.now {last : Iterator} (used : it.entries.length ≤ it.served) (ended : it.next crc = some (last, false))
    (reads : ∀ error, last.err = some error → error.notReading = true)
    (none : last.err = none → it.r.index[it.nextBlock]? = none) : it.Ends crc [] last := by
  refine ⟨walk_end ended, reads, fun _ e present => ?_, fun done i loc from_ there => ?_⟩
  · rw [List.drop_eq_nil_of_le used] at present
    exact present
  · have behind := List.getElem?_eq_none_iff.mp (none done)
    have inside := (List.getElem?_eq_some_iff.mp there).1
    omega

theorem Ends.load {walked : List Entry} {last : Iterator} (clean : it.err = none) (used : it.entries.length ≤ it.served)
    {loc : IndexEntry} (there : it.r.index[it.nextBlock]? = some loc) {entries : List Entry}
    (holds : it.r.Holds crc loc entries)
    (ends : ({ it with nextBlock := it.nextBlock + 1, entries := entries, served := 0 } : Iterator).Ends crc walked
      last) :
    it.Ends crc walked last := by
  refine ⟨ends.of_next (next_load clean used there holds), ends.reads, fun _ e present => ?_,
    fun done i other from_ found => ?_⟩
  · rw [List.drop_eq_nil_of_le used] at present
    cases present
  · rcases Nat.eq_or_lt_of_le from_ with rfl | later
    · rw [there] at found
      cases found
      exact ⟨entries, holds, ends.current done⟩
    · exact ends.blocks done i other later found

theorem ends_walk {file : Bytes} {ft : Footer} (it : Iterator) (within : it.r.Within file crc ft)
    (clean : it.err = none) :
    ∃ walked last, it.Ends crc walked last := by
  by_cases more : it.served < it.entries.length
  · obtain ⟨walked, last, ends⟩ := ends_walk { it with served := it.served + 1 } within clean
    exact ⟨_, last, ends.serve clean more⟩
  · have used := Nat.not_lt.mp more
    cases there : it.r.index[it.nextBlock]? with
    | none =>
      exact ⟨[], it, Ends.now used (next_done clean used there) (fun error failed => nomatch clean.symm.trans failed)
        fun _ => there⟩
    | some loc =>
      have inside : it.nextBlock < it.r.index.length := (List.getElem?_eq_some_iff.mp there).1
      have read := @Reader.Within.block_ends it.r file crc ft within loc (List.mem_of_getElem? there)
        (.iteratorRead loc.blockOffset.toNat) (.iteratorDecode loc.blockOffset.toNat) fun _ => rfl
      rcases read.run_cases with ⟨entries, _, _, holds⟩ | ⟨error, failed, notReading⟩
      · obtain ⟨walked, last, ends⟩ :=
          ends_walk { it with nextBlock := it.nextBlock + 1, entries := entries, served := 0 } within clean
        exact ⟨walked, last, ends.load clean used there holds⟩
      · refine ⟨[], _, Ends.now used (next_fail clean used there failed) (fun other same => ?_) (nomatch ·)⟩
        cases same
        exact notReading
termination_by (it.r.index.length - it.nextBlock, it.entries.length - it.served)

end Iterator

/-- Whatever the file and the checksum: opening it fails without a read outside the file, or gives a reader whose
sections and blocks lie in the file. Then no lookup and no walk over the table makes an access outside or a read that
fails, both end, and what a lookup finds is a live entry of a walk that succeeds. -/
theorem reading_safe (file : Bytes) (crc : Bytes → UInt32) :
    (∃ error, openTable file crc = some (.error error) ∧ error.notReading = true) ∨
      ∃ r ft, openTable file crc = some (.ok r) ∧ r.Within file crc ft ∧
        (∀ key, ∃ result, r.getChecked key crc = some result ∧ r.get key crc = some result ∧
          ∀ error, result = .error error → error.notReading = true) ∧
        ∃ walked last, (∃ bound, ∀ fuel, bound ≤ fuel → r.newIterator.walk fuel crc = some (walked, last)) ∧
          (∀ error, last.err = some error → error.notReading = true) ∧
          (last.err = none → ∀ key value, r.getChecked key crc = some (.ok (value, .found)) →
            ∃ e ∈ walked, e.key = key ∧ e.value = value ∧ e.tombstone = false) := by
  rcases (readTable_ends file crc).run_cases with ⟨r, _, opened, ft, within⟩ | ⟨error, failed, notReading⟩
  · obtain ⟨walked, last, ends⟩ := Iterator.ends_walk r.newIterator within rfl
    refine Or.inr
      ⟨r, ft, opened, within, fun key => ?_, walked, last, ends.walks, ends.reads, fun done key value found => ?_⟩
    · rw [← within.getChecked_eq]
      rcases (within.lookUp_ends key).run_cases with ⟨read, _, answered, _⟩ | ⟨error, failed, notReading⟩
      · exact ⟨_, answered, answered, fun error never => nomatch never⟩
      · refine ⟨_, failed, failed, fun other same => ?_⟩
        cases same
        exact notReading
    · rcases (within.lookUp_ends key).run_cases with ⟨read, _, answered, source⟩ | ⟨error, failed, _⟩
      · cases Option.some.inj (answered.symm.trans found)
        obtain ⟨loc, present, entries, holds, e, inside, named, valued, live⟩ := source rfl
        obtain ⟨i, there⟩ := List.mem_iff_getElem?.mp present
        obtain ⟨same, held, all⟩ := ends.blocks done i loc (Nat.zero_le i) there
        have unique := (held.run (.iteratorRead 0) (.iteratorDecode 0)).symm.trans (holds.run _ _)
        cases unique
        exact ⟨e, all e inside, named, valued, live⟩
      · cases Option.some.inj (failed.symm.trans found)
  · exact Or.inl ⟨error, failed, notReading⟩

end ForgeDB.Storage.SSTable
