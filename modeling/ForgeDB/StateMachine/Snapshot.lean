import ForgeDB.StateMachine.Machine

/-!
Snapshots of the state machine: its pairs and its table of last requests in one checked block of
bytes, and the restoration of a machine from such a block, which removes what the block does not
mention.
-/

namespace ForgeDB.StateMachine

def smSnapshotMagic : Bytes := [70, 111, 114, 103, 101, 83, 77, 49]

def smSnapshotFormatVersion1 : Nat := 1

def smMaxEntries : Nat := 2 ^ 20

def smMaxDedupEntries : Nat := 2 ^ 20

def smMaxKeyLen : Nat := 2 ^ 20

def smMaxValueLen : Nat := 2 ^ 20

def smMaxClientIDLen : Nat := 4096

def smMaxSnapshotBytes : Nat := 2 ^ 29

inductive SnapshotError where
  | tooManyKeys (count : Nat)
  | tooManyDedup (count : Nat)
  | keyValueBounds
  | dedupBounds
  | tooLarge (length : Nat)
  | truncatedHeader (length : Nat)
  | badMagic
  | badVersion (version : Nat)
  | truncated (length : Nat)
  | checksumMismatch
  | truncatedLength
  | fieldTooLong (length bound : Nat)
  | truncatedField (length : Nat)
  | truncatedNumKV
  | numKVTooLarge (count : Nat)
  | truncatedNumDedup
  | numDedupTooLarge (count : Nat)
  | truncatedDedup (entry : Nat)
  | unknownDedupOp (entry : Nat) (code : UInt8)
  | truncatedDedupFlags (entry : Nat)
  | truncatedDedupCode (entry : Nat)
  | unknownResultCode (code : UInt8)
  | trailingBytes
  | deleteStaleKey
  | putKey
  deriving DecidableEq, Repr

/-- What the error prints. The texts of a failing store end in the store's own. -/
def SnapshotError.text : SnapshotError → String
  | tooManyKeys count => s!"statemachine: snapshot: {count} live keys exceeds maximum of {smMaxEntries}"
  | tooManyDedup count => s!"statemachine: snapshot: {count} dedup entries exceeds maximum of {smMaxDedupEntries}"
  | keyValueBounds => "statemachine: snapshot: key/value exceeds bounds"
  | dedupBounds => "statemachine: snapshot: dedup entry exceeds bounds"
  | tooLarge length =>
    s!"statemachine: snapshot of {length} bytes exceeds maximum of {smMaxSnapshotBytes}: statemachine: invalid command"
  | truncatedHeader length =>
    s!"statemachine: truncated snapshot header ({length} bytes): statemachine: invalid command"
  | badMagic => "statemachine: snapshot: bad magic: statemachine: invalid command"
  | badVersion version =>
    s!"statemachine: snapshot: unsupported format version {version}: statemachine: invalid command"
  | truncated length => s!"statemachine: truncated snapshot ({length} bytes): statemachine: invalid command"
  | checksumMismatch => "statemachine: snapshot: checksum mismatch: statemachine: invalid command"
  | truncatedLength => "statemachine: snapshot: truncated length field: statemachine: invalid command"
  | fieldTooLong length bound =>
    s!"statemachine: snapshot: field length {length} exceeds maximum of {bound}: statemachine: invalid command"
  | truncatedField length =>
    s!"statemachine: snapshot: truncated field (want {length} bytes): statemachine: invalid command"
  | truncatedNumKV => "statemachine: snapshot: truncated numKV: statemachine: invalid command"
  | numKVTooLarge count =>
    s!"statemachine: snapshot: numKV {count} exceeds maximum of {smMaxEntries}: statemachine: invalid command"
  | truncatedNumDedup => "statemachine: snapshot: truncated numDedup: statemachine: invalid command"
  | numDedupTooLarge count =>
    s!"statemachine: snapshot: numDedup {count} exceeds maximum of {smMaxDedupEntries}: statemachine: invalid command"
  | truncatedDedup entry => s!"statemachine: snapshot: truncated dedup entry {entry}: statemachine: invalid command"
  | unknownDedupOp entry code =>
    s!"statemachine: snapshot: dedup entry {entry}: unknown op {code}: statemachine: invalid command"
  | truncatedDedupFlags entry =>
    s!"statemachine: snapshot: truncated dedup entry {entry} result flags: statemachine: invalid command"
  | truncatedDedupCode entry =>
    s!"statemachine: snapshot: truncated dedup entry {entry} result error code: statemachine: invalid command"
  | unknownResultCode code =>
    s!"statemachine: snapshot: unknown result error code {code}: statemachine: invalid command"
  | trailingBytes => "statemachine: snapshot: trailing bytes after dedup entries: statemachine: invalid command"
  | deleteStaleKey => "statemachine: restore snapshot: delete stale key"
  | putKey => "statemachine: restore snapshot: put key"

def encodeResultErr : Option ResultError → UInt8
  | none => 0
  | some .requestIDConflict => 1
  | some .staleRequest => 2
  | some .emptyKey => 3

def decodeResultErr (code : UInt8) : Except SnapshotError (Option ResultError) :=
  if code = 0 then .ok none
  else if code = 1 then .ok (some .requestIDConflict)
  else if code = 2 then .ok (some .staleRequest)
  else if code = 3 then .ok (some .emptyKey)
  else .error (.unknownResultCode code)

def flag (value : Bool) : UInt8 := if value then 1 else 0

def encodeKV (entry : Bytes × Bytes) : Bytes := putBytes entry.1 ++ putBytes entry.2

def encodeDedup (row : Bytes × DedupEntry) : Bytes :=
  putBytes row.1 ++ (putUint64 row.2.requestID ++ (row.2.op.code :: (putBytes row.2.key ++ (putBytes row.2.value ++
    (flag row.2.result.applied :: flag row.2.result.replayed :: (putBytes row.2.result.key ++
      (putBytes row.2.result.value ++ [encodeResultErr row.2.result.err])))))))

def boundedKV (entry : Bytes × Bytes) : Bool :=
  entry.1.length ≤ smMaxKeyLen && entry.2.length ≤ smMaxValueLen

def boundedDedup (row : Bytes × DedupEntry) : Bool :=
  row.1.length ≤ smMaxClientIDLen && row.2.key.length ≤ smMaxKeyLen && row.2.value.length ≤ smMaxValueLen &&
    row.2.result.key.length ≤ smMaxKeyLen && row.2.result.value.length ≤ smMaxValueLen

def snapshotBody (kv : List (Bytes × Bytes)) (rows : List (Bytes × DedupEntry)) : Bytes :=
  smSnapshotMagic ++ (putUint32 smSnapshotFormatVersion1 ++ (putUint32 kv.length ++ (kv.flatMap encodeKV ++
    (putUint32 rows.length ++ rows.flatMap encodeDedup))))

namespace KVStateMachine

def createSnapshot (sm : KVStateMachine) : Except SnapshotError Bytes :=
  let kv := sm.store.snapshot
  let rows := sm.dedup.entries
  if smMaxEntries < kv.length then .error (.tooManyKeys kv.length)
  else if smMaxDedupEntries < rows.length then .error (.tooManyDedup rows.length)
  else if !kv.all boundedKV then .error .keyValueBounds
  else if !rows.all boundedDedup then .error .dedupBounds
  else
    let body := snapshotBody kv rows
    .ok (body ++ putUint32 (checksum body).toNat)

end KVStateMachine

def readBytes (maxLen : Nat) (body : Bytes) : Except SnapshotError (Bytes × Bytes) :=
  if body.length < 4 then .error .truncatedLength
  else
    let n := uint32 body
    let body := body.drop 4
    if maxLen < n then .error (.fieldTooLong n maxLen)
    else if body.length < n then .error (.truncatedField n)
    else .ok (body.take n, body.drop n)

def readKV : Nat → Bytes → Except SnapshotError (List (Bytes × Bytes) × Bytes)
  | 0, body => .ok ([], body)
  | count + 1, body => do
    let (key, body) ← readBytes smMaxKeyLen body
    let (value, body) ← readBytes smMaxValueLen body
    let (kv, body) ← readKV count body
    return ((key, value) :: kv, body)

def readDedupEntry (entry : Nat) (body : Bytes) : Except SnapshotError ((Bytes × DedupEntry) × Bytes) := do
  let (clientID, body) ← readBytes smMaxClientIDLen body
  if body.length < 8 + 1 then throw (.truncatedDedup entry)
  let requestID := uint64 body
  let body := body.drop 8
  let op := Op.ofCode (body.headD 0)
  if op ≠ .put ∧ op ≠ .delete then throw (.unknownDedupOp entry (body.headD 0))
  let (key, body) ← readBytes smMaxKeyLen (body.drop 1)
  let (value, body) ← readBytes smMaxValueLen body
  if body.length < 2 then throw (.truncatedDedupFlags entry)
  let applied := body.headD 0 != 0
  let replayed := (body.drop 1).headD 0 != 0
  let (resultKey, body) ← readBytes smMaxKeyLen (body.drop 2)
  let (resultValue, body) ← readBytes smMaxValueLen body
  if body.length < 1 then throw (.truncatedDedupCode entry)
  let resultErr ← decodeResultErr (body.headD 0)
  return ((clientID, ⟨requestID, op, key, value, ⟨applied, replayed, resultKey, resultValue, resultErr⟩⟩), body.drop 1)

/-- `entry` counts the rows read before; a later row of a client replaces an earlier one. -/
def readDedup (entry : Nat) (dedup : SortedMap Bytes DedupEntry) :
    Nat → Bytes → Except SnapshotError (SortedMap Bytes DedupEntry × Bytes)
  | 0, body => .ok (dedup, body)
  | count + 1, body => do
    let (row, body) ← readDedupEntry entry body
    readDedup (entry + 1) (dedup.insert row.1 row.2) count body

def decodeKVStateMachineSnapshot (data : Bytes) :
    Except SnapshotError (List (Bytes × Bytes) × SortedMap Bytes DedupEntry) := do
  if smMaxSnapshotBytes < data.length then throw (.tooLarge data.length)
  if data.length < 8 + 4 + 4 then throw (.truncatedHeader data.length)
  if data.take 8 ≠ smSnapshotMagic then throw .badMagic
  let version := uint32 (data.drop 8)
  if version ≠ smSnapshotFormatVersion1 then throw (.badVersion version)
  if data.length < 16 + 4 then throw (.truncated data.length)
  let stored := uint32 (data.drop (data.length - 4))
  let body := data.take (data.length - 4)
  if (checksum body).toNat ≠ stored then throw .checksumMismatch
  let body := body.drop 12
  if body.length < 4 then throw .truncatedNumKV
  let numKV := uint32 body
  if smMaxEntries < numKV then throw (.numKVTooLarge numKV)
  let (kv, body) ← readKV numKV (body.drop 4)
  if body.length < 4 then throw .truncatedNumDedup
  let numDedup := uint32 body
  if smMaxDedupEntries < numDedup then throw (.numDedupTooLarge numDedup)
  let (dedup, body) ← readDedup 0 SortedMap.empty numDedup (body.drop 4)
  if body.length ≠ 0 then throw .trailingBytes
  return (kv, dedup)

namespace MemStore

def deleteAll (s : MemStore) : List Bytes → MemStore × Bool
  | [] => (s, true)
  | key :: keys =>
    match s.delete key with
    | (s, .error _) => (s, false)
    | (s, .ok _) => s.deleteAll keys

def putAll (s : MemStore) : List (Bytes × Bytes) → MemStore × Bool
  | [] => (s, true)
  | entry :: entries =>
    match s.put entry.1 entry.2 with
    | (s, .error _) => (s, false)
    | (s, .ok _) => s.putAll entries

end MemStore

namespace KVStateMachine

/-- A store that fails midway leaves its pairs half changed and the table of requests as it was. -/
def restoreSnapshot (sm : KVStateMachine) (data : Bytes) : KVStateMachine × Except SnapshotError Unit :=
  match decodeKVStateMachineSnapshot data with
  | .error error => (sm, .error error)
  | .ok (kv, dedup) =>
    let stale := (sm.store.snapshot.map Prod.fst).filter fun key => !kv.any fun entry => entry.1 == key
    match sm.store.deleteAll stale with
    | (store, false) => ({ sm with store := store }, .error .deleteStaleKey)
    | (store, true) =>
      match store.putAll kv with
      | (store, false) => ({ sm with store := store }, .error .putKey)
      | (store, true) => (⟨store, dedup⟩, .ok ())

end KVStateMachine

/-! ### Reading back what was written -/

theorem readBytes_put {maxLen : Nat} {field : Bytes} (bounded : field.length ≤ maxLen) (small : maxLen < 2 ^ 32)
    (rest : Bytes) : readBytes maxLen (putBytes field ++ rest) = .ok (field, rest) := by
  have long : ¬ (putBytes field ++ rest).length < 4 := by
    rw [List.length_append, putBytes_length]
    omega
  rw [readBytes, if_neg long]
  simp only [putBytes, List.append_assoc, uint32_put (show field.length < 2 ^ 32 by omega), drop_putUint32]
  rw [if_neg (Nat.not_lt.mpr bounded), if_neg (by rw [List.length_append]; omega), List.take_left, List.drop_left]

theorem readKV_encode {entries : List (Bytes × Bytes)} (bounded : ∀ entry ∈ entries, boundedKV entry = true)
    (rest : Bytes) : readKV entries.length (entries.flatMap encodeKV ++ rest) = .ok (entries, rest) := by
  induction entries with
  | nil => rfl
  | cons entry entries ih =>
    have fits := bounded entry List.mem_cons_self
    simp only [boundedKV, Bool.and_eq_true, decide_eq_true_eq] at fits
    simp only [List.length_cons, readKV, List.flatMap_cons, encodeKV, List.append_assoc]
    rw [readBytes_put fits.1 (by decide)]
    simp only [bind, Except.bind]
    rw [readBytes_put fits.2 (by decide)]
    simp only [ih fun entry present => bounded entry (List.mem_cons_of_mem _ present)]
    rfl

theorem decodeResultErr_encode (err : Option ResultError) : decodeResultErr (encodeResultErr err) = .ok err := by
  rcases err with _ | _ | _ | _ <;> rfl

theorem flag_ne_zero (value : Bool) : (flag value != 0) = value := by
  cases value <;> rfl

theorem readDedupEntry_encode (entry : Nat) {row : Bytes × DedupEntry} (bounded : boundedDedup row = true)
    (known : row.2.op = .put ∨ row.2.op = .delete) (rest : Bytes) :
    readDedupEntry entry (encodeDedup row ++ rest) = .ok (row, rest) := by
  obtain ⟨clientID, requestID, op, key, value, applied, replayed, resultKey, resultValue, err⟩ := row
  simp only [boundedDedup, Bool.and_eq_true, decide_eq_true_eq] at bounded
  obtain ⟨⟨⟨⟨shortID, shortKey⟩, shortValue⟩, shortResultKey⟩, shortResultValue⟩ := bounded
  have sameOp : Op.ofCode op.code = op := by
    rcases known with rfl | rfl <;> rfl
  have knownOp : ¬ (op ≠ .put ∧ op ≠ .delete) := fun both => known.elim both.1 both.2
  simp only [readDedupEntry, encodeDedup, List.append_assoc, List.cons_append, List.nil_append,
    readBytes_put shortID (by decide), readBytes_put shortKey (by decide), readBytes_put shortValue (by decide),
    readBytes_put shortResultKey (by decide), readBytes_put shortResultValue (by decide), bind, Except.bind,
    drop_putUint64, uint64_put, List.headD_cons, sameOp, List.drop_succ_cons, List.drop_zero, flag_ne_zero,
    decodeResultErr_encode]
  rw [if_neg (by simp only [List.length_append, putUint64_length, List.length_cons]; omega), if_neg knownOp,
    if_neg (by simp only [List.length_cons]; omega), if_neg (by simp only [List.length_cons]; omega)]
  rfl

theorem readDedup_encode {rows : List (Bytes × DedupEntry)} (bounded : ∀ row ∈ rows, boundedDedup row = true)
    (known : ∀ row ∈ rows, row.2.op = .put ∨ row.2.op = .delete) (entry : Nat) (dedup : SortedMap Bytes DedupEntry)
    (rest : Bytes) : readDedup entry dedup rows.length (rows.flatMap encodeDedup ++ rest) =
      .ok (rows.foldl (fun dedup row => dedup.insert row.1 row.2) dedup, rest) := by
  induction rows generalizing entry dedup with
  | nil => rfl
  | cons row rows ih =>
    simp only [List.length_cons, readDedup, List.flatMap_cons, List.append_assoc, List.foldl_cons]
    rw [readDedupEntry_encode entry (bounded row List.mem_cons_self) (known row List.mem_cons_self)]
    exact ih (fun row present => bounded row (List.mem_cons_of_mem _ present))
      (fun row present => known row (List.mem_cons_of_mem _ present)) _ _

theorem KVStateMachine.createSnapshot_eq_ok {sm : KVStateMachine} {data : Bytes} :
    sm.createSnapshot = .ok data ↔
      sm.store.snapshot.length ≤ smMaxEntries ∧ sm.dedup.entries.length ≤ smMaxDedupEntries ∧
        (∀ entry ∈ sm.store.snapshot, boundedKV entry = true) ∧ (∀ row ∈ sm.dedup.entries, boundedDedup row = true) ∧
        data = snapshotBody sm.store.snapshot sm.dedup.entries ++
          putUint32 (checksum (snapshotBody sm.store.snapshot sm.dedup.entries)).toNat := by
  simp only [createSnapshot, Bool.not_eq_true', ← Bool.not_eq_true, List.all_eq_true, ← Nat.not_lt]
  split
  · rename_i many
    exact iff_of_false (fun created => nomatch created) fun all => all.1 many
  rename_i fewKeys
  split
  · rename_i many
    exact iff_of_false (fun created => nomatch created) fun all => all.2.1 many
  rename_i fewRows
  split
  · rename_i long
    exact iff_of_false (fun created => nomatch created) fun all => long all.2.2.1
  rename_i boundedKeys
  split
  · rename_i long
    exact iff_of_false (fun created => nomatch created) fun all => long all.2.2.2.1
  rename_i boundedRows
  rw [Except.ok.injEq]
  exact ⟨fun same => ⟨fewKeys, fewRows, not_not.mp boundedKeys, not_not.mp boundedRows, same.symm⟩,
    fun all => all.2.2.2.2.symm⟩

theorem decode_createSnapshot {sm : KVStateMachine} {data : Bytes} (created : sm.createSnapshot = .ok data)
    (known : ∀ row ∈ sm.dedup.entries, row.2.op = .put ∨ row.2.op = .delete) (fits : data.length ≤ smMaxSnapshotBytes) :
    decodeKVStateMachineSnapshot data = .ok (sm.store.snapshot, sm.dedup) := by
  obtain ⟨fewKeys, fewRows, boundedKeys, boundedRows, rfl⟩ := KVStateMachine.createSnapshot_eq_ok.mp created
  generalize sm.store.snapshot = kv at fits fewKeys boundedKeys ⊢
  have table : sm.dedup.entries.foldl (fun dedup row => dedup.insert row.1 row.2) SortedMap.empty = sm.dedup :=
    sm.dedup.foldl_insert_entries
  generalize sm.dedup.entries = rows at fits fewRows boundedRows known table ⊢
  have keyCount : kv.length < 2 ^ 32 := lt_of_le_of_lt fewKeys (by decide)
  have rowCount : rows.length < 2 ^ 32 := lt_of_le_of_lt fewRows (by decide)
  have sum : (checksum (snapshotBody kv rows)).toNat < 2 ^ 32 := (checksum (snapshotBody kv rows)).toNat_lt
  -- The header, the counted parts and the trailing checksum, each found where it was put.
  have length : (snapshotBody kv rows ++ putUint32 (checksum (snapshotBody kv rows)).toNat).length =
      (snapshotBody kv rows).length + 4 := by
    rw [List.length_append, putUint32_length]
  have long : 20 ≤ (snapshotBody kv rows).length := by
    simp only [snapshotBody, smSnapshotMagic, List.length_append, List.length_cons, List.length_nil, putUint32_length]
    omega
  have magic : (snapshotBody kv rows ++ putUint32 (checksum (snapshotBody kv rows)).toNat).take 8 =
      smSnapshotMagic := by
    rw [snapshotBody, List.append_assoc]
    exact List.take_left' rfl
  have version : uint32 ((snapshotBody kv rows ++ putUint32 (checksum (snapshotBody kv rows)).toNat).drop 8) =
      smSnapshotFormatVersion1 := by
    rw [snapshotBody, List.append_assoc, List.drop_left' (show smSnapshotMagic.length = 8 from rfl), List.append_assoc]
    exact uint32_put (by decide) _
  have trailer : uint32 ((snapshotBody kv rows ++ putUint32 (checksum (snapshotBody kv rows)).toNat).drop
      (snapshotBody kv rows).length) = (checksum (snapshotBody kv rows)).toNat := by
    rw [List.drop_left, ← List.append_nil (putUint32 _)]
    exact uint32_put sum []
  have body : (snapshotBody kv rows).drop 12 = putUint32 kv.length ++ (kv.flatMap encodeKV ++
      (putUint32 rows.length ++ rows.flatMap encodeDedup)) := by
    rw [snapshotBody, ← List.append_assoc]
    exact List.drop_left' (by rw [List.length_append, putUint32_length]; rfl)
  have rowsRead := readDedup_encode boundedRows known 0 SortedMap.empty []
  rw [List.append_nil, table] at rowsRead
  simp only [decodeKVStateMachineSnapshot, length, Nat.add_sub_cancel, List.take_left, magic, version, trailer, body]
  rw [if_neg (by omega), if_neg (by omega), if_neg (not_not.mpr rfl), if_neg (not_not.mpr rfl), if_neg (by omega),
    if_neg (not_not.mpr rfl), if_neg (by simp only [List.length_append, putUint32_length]; omega), uint32_put keyCount,
    if_neg (Nat.not_lt.mpr fewKeys), drop_putUint32, readKV_encode boundedKeys]
  simp only [bind, Except.bind]
  rw [if_neg (by simp only [List.length_append, putUint32_length]; omega), uint32_put rowCount,
    if_neg (Nat.not_lt.mpr fewRows), drop_putUint32, rowsRead]
  rfl

namespace MemStore

theorem deleteAll_get? {s after : MemStore} {keys : List Bytes} (done : s.deleteAll keys = (after, true))
    (key : Bytes) :
    after.table.get? key = if key ∈ keys then none else s.table.get? key := by
  induction keys generalizing s with
  | nil =>
    cases done
    simp only [List.not_mem_nil, if_false]
  | cons first keys ih =>
    unfold deleteAll delete at done
    by_cases blank : first = []
    · rw [if_pos blank] at done
      cases done
    rw [if_neg blank] at done
    rcases s.logged_cases fun table => table.erase first with ⟨later, same⟩ | ⟨later, same⟩
    · rw [same] at done
      cases done
    · rw [same] at done
      rw [ih done, SortedMap.get?_erase]
      by_cases here : key = first
      · simp only [here, if_true, ite_self, List.mem_cons_self]
      · simp only [here, if_false, List.mem_cons, false_or]

theorem putAll_table {s after : MemStore} {entries : List (Bytes × Bytes)} (done : s.putAll entries = (after, true)) :
    after.table = entries.foldl (fun table entry => table.insert entry.1 entry.2) s.table := by
  induction entries generalizing s with
  | nil =>
    cases done
    rfl
  | cons entry entries ih =>
    unfold putAll put at done
    by_cases blank : entry.1 = []
    · rw [if_pos blank] at done
      cases done
    rw [if_neg blank] at done
    rcases s.logged_cases fun table => table.insert entry.1 entry.2 with ⟨later, same⟩ | ⟨later, same⟩
    · rw [same] at done
      cases done
    · rw [same] at done
      rw [ih done, List.foldl_cons]

end MemStore

def Contents.Known (state : Contents) : Prop :=
  ∀ row ∈ state.dedup.entries, row.2.op = .put ∨ row.2.op = .delete

namespace KVStateMachine

theorem restoreSnapshot_contents {sm source after : KVStateMachine} {data : Bytes} (known : source.contents.Known)
    (created : source.createSnapshot = .ok data) (restored : sm.restoreSnapshot data = (after, .ok ())) :
    after.contents = source.contents := by
  have decoded : decodeKVStateMachineSnapshot data = .ok (source.store.snapshot, source.dedup) := by
    apply decode_createSnapshot created known
    by_contra large
    have failed : decodeKVStateMachineSnapshot data = .error (.tooLarge data.length) := by
      rw [decodeKVStateMachineSnapshot, if_pos (Nat.lt_of_not_le large)]
      rfl
    rw [restoreSnapshot, failed] at restored
    cases restored
  simp only [restoreSnapshot, decoded] at restored
  split at restored
  · cases restored
  rename_i middle deleted
  split at restored
  · cases restored
  rename_i store filled
  cases restored
  have table : store.table = source.store.table := by
    apply SortedMap.ext_get?
    intro key
    rw [MemStore.putAll_table filled, MemStore.snapshot, SortedMap.get?_foldl_insert _ source.store.table.sorted,
      MemStore.deleteAll_get? deleted]
    change (source.store.table.get? key).or _ = source.store.table.get? key
    cases wanted : source.store.table.get? key with
    | some value => rfl
    | none =>
      -- A key the snapshot lacks was absent, or it was deleted as stale.
      simp only [Option.none_or]
      split
      · rfl
      · rename_i kept
        cases held : sm.store.table.get? key with
        | none => rfl
        | some value =>
          refine absurd (List.mem_filter.mpr ⟨?_, ?_⟩) kept
          · exact List.mem_map.mpr ⟨_, SortedMap.mem_of_lookup held, rfl⟩
          · simp only [Bool.not_eq_true', List.any_eq_false, beq_iff_eq]
            rintro entry present rfl
            have found := SortedMap.lookup_of_mem source.store.table.sorted present
            rw [show SortedMap.lookup entry.1 source.store.table.entries = none from wanted] at found
            cases found
  simp only [contents, table]

theorem execute_known {sm after : KVStateMachine} {cmd : Command} {result : Result}
    (ran : sm.execute cmd = (after, .ok result)) :
    (cmd.op = .put ∨ cmd.op = .delete) ∧ after.dedup = sm.dedup := by
  unfold execute at ran
  split at ran
  · rename_i same
    split at ran <;> cases ran <;> exact ⟨Or.inl same, rfl⟩
  · rename_i same
    split at ran <;> cases ran <;> exact ⟨Or.inr same, rfl⟩
  · cases ran

theorem record_known {sm after : KVStateMachine} {cmd : Command} {result : Result} (known : sm.contents.Known)
    (ran : sm.record cmd = (after, .ok result)) : after.contents.Known := by
  unfold record at ran
  split at ran
  · cases ran
  · rename_i middle outcome executed
    obtain ⟨known, same⟩ := execute_known executed
    cases ran
    intro row present
    rcases SortedMap.mem_insertEntry present with rfl | old
    · exact known
    · rw [same] at old
      exact ‹sm.contents.Known› row old

theorem apply_known {sm after : KVStateMachine} {cmd : Command} {result : Result} (known : sm.contents.Known)
    (ran : sm.apply cmd = (after, .ok result)) : after.contents.Known := by
  unfold apply at ran
  split at ran
  · exact record_known known ran
  · split at ran
    · split at ran <;> cases ran <;> exact known
    · split at ran
      · cases ran
        exact known
      · exact record_known known ran

theorem apply_keeps_known {sm : KVStateMachine} (known : sm.contents.Known) (cmd : Command) :
    (sm.apply cmd).1.contents.Known := by
  rcases ran : sm.apply cmd with ⟨after, error | result⟩
  · have same := (sm.apply_resolves cmd).unresolved error (by rw [ran])
    rw [ran] at same
    rwa [same]
  · exact apply_known known ran

end KVStateMachine

namespace Contents

theorem apply_known {state next : Contents} {raw : Bytes} (known : state.Known)
    (applied : state.apply raw = some next) :
    next.Known := by
  unfold apply at applied
  split at applied
  · cases applied
  · split at applied
    · cases applied
    · rename_i ran
      cases applied
      exact KVStateMachine.apply_known (show state.machine.contents.Known from known) ran

theorem replay_known {commands : List Bytes} {state : Contents} (replayed : replay commands = some state) :
    state.Known := by
  have general : ∀ (commands : List Bytes) (first last : Contents), first.Known →
      commands.foldlM apply first = some last → last.Known := by
    intro commands
    induction commands with
    | nil =>
      intro first last known done
      cases done
      exact known
    | cons raw commands ih =>
      intro first last known done
      simp only [List.foldlM_cons, Option.bind_eq_bind, Option.bind_eq_some_iff] at done
      obtain ⟨next, applied, rest⟩ := done
      exact ih next last (apply_known known applied) rest
  exact general commands empty state (fun row present => nomatch present) replayed

end Contents

end ForgeDB.StateMachine
