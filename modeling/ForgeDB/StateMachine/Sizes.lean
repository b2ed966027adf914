import ForgeDB.Raft.Format
import ForgeDB.StateMachine.Restore
import ForgeDB.Storage.WAL

/-!
The limits that one write meets on its way. The command's encoder bounds the client, the key and the value one
by one; the log bounds the encoded command as a whole. The store and the snapshot bound the parts again, and
never more tightly.
-/

namespace ForgeDB.StateMachine

open Raft.Words (encodeState encodeState_ok encodeState_of_bounds maxLogEntries maxCommandSize)
open Storage (encodeRecord)

/-- What the layers behind the encoder have to accept for a write not to fail for its size. -/
structure Command.Fits (crc : Bytes → UInt32) (cmd : Command) (raw : Bytes) : Prop where
  /-- A state with room for one more entry is accepted with the command if it is accepted without. -/
  log : ∀ currentTerm votedFor before after index term,
    (∃ data, encodeState crc ⟨currentTerm, votedFor, before ++ after⟩ = .ok data) →
    (before ++ after).length < maxLogEntries →
    ∃ data, encodeState crc ⟨currentTerm, votedFor, before ++ ⟨index, term, raw⟩ :: after⟩ = .ok data
  record : cmd.key ≠ [] → ∀ type, type = .put ∨ type = .delete → ∀ value, value = cmd.value ∨ value = [] →
    ∃ data, encodeRecord ⟨type, cmd.key, value⟩ = .ok data
  /-- As long as the pairs and the clients are not too many, a machine that has a snapshot has one after the
  command too, and what is not too large as a whole can be read back. -/
  snapshot : ∀ sm : KVStateMachine, sm.contents.Known → (∃ data, sm.createSnapshot = .ok data) →
    (sm.apply cmd).1.store.snapshot.length ≤ smMaxEntries →
    (sm.apply cmd).1.dedup.entries.length ≤ smMaxDedupEntries →
    ∃ data, (sm.apply cmd).1.createSnapshot = .ok data ∧
      (data.length ≤ smMaxSnapshotBytes → ∃ decoded, decodeKVStateMachineSnapshot data = .ok decoded)

namespace Command

variable {cmd : Command} {raw : Bytes}

theorem encode_ok (encoded : cmd.encode = .ok raw) :
    cmd.clientID.length ≤ maxClientIDLen ∧ cmd.key.length ≤ maxKeyLen ∧ cmd.value.length ≤ maxValueLen ∧
      raw.length = commandHeaderLen + cmd.clientID.length + cmd.key.length + cmd.value.length := by
  unfold encode at encoded
  split at encoded
  · cases encoded
  split at encoded
  · cases encoded
  split at encoded
  · cases encoded
  split at encoded
  · cases encoded
  rename_i shortID shortKey shortValue
  cases encoded
  refine ⟨Nat.le_of_not_lt shortID, Nat.le_of_not_lt shortKey, Nat.le_of_not_lt shortValue, ?_⟩
  simp only [commandHeaderLen, List.length_cons, List.length_append, putBytes_length, putUint64_length]
  omega

theorem encode_record (encoded : cmd.encode = .ok raw) (named : cmd.key ≠ []) {type : Storage.OpType}
    (known : type = .put ∨ type = .delete) {value : Bytes} (part : value = cmd.value ∨ value = []) :
    ∃ data, encodeRecord ⟨type, cmd.key, value⟩ = .ok data := by
  obtain ⟨_, shortKey, shortValue, _⟩ := encode_ok encoded
  have short : value.length ≤ Storage.maxValueSize := by
    have below : maxValueLen ≤ Storage.maxValueSize := by decide
    rcases part with rfl | rfl
    · exact shortValue.trans below
    · exact Nat.zero_le _
  have some : cmd.key.length ≠ 0 := fun empty => named (List.eq_nil_of_length_eq_zero empty)
  exact ⟨_, Storage.encodeRecord_of_bounds known some shortKey short⟩

theorem encode_bounded (encoded : cmd.encode = .ok raw) :
    boundedKV (cmd.key, cmd.value) = true ∧
      boundedDedup (cmd.clientID, ⟨cmd.requestID, cmd.op, cmd.key, cmd.value, cmd.outcome⟩) = true := by
  obtain ⟨shortID, shortKey, shortValue, _⟩ := encode_ok encoded
  have outcomeKey : cmd.outcome.key.length ≤ smMaxKeyLen := by
    unfold outcome
    split
    · exact Nat.zero_le _
    · exact shortKey
  have outcomeValue : cmd.outcome.value.length ≤ smMaxValueLen := by
    unfold outcome
    split
    · exact Nat.zero_le _
    · dsimp only
      split
      · exact shortValue
      · exact Nat.zero_le _
  simp only [boundedKV, boundedDedup, Bool.and_eq_true, decide_eq_true_eq]
  exact ⟨⟨shortKey, shortValue⟩, ⟨⟨⟨shortID, shortKey⟩, shortValue⟩, outcomeKey⟩, outcomeValue⟩

theorem effect_bounded (bounded : boundedKV (cmd.key, cmd.value) = true) {table : SortedMap Bytes Bytes}
    (before : ∀ entry ∈ table.entries, boundedKV entry = true) :
    ∀ entry ∈ (cmd.effect table).entries, boundedKV entry = true := by
  intro entry present
  unfold effect at present
  split at present
  · exact before entry present
  split at present
  · rcases SortedMap.mem_insertEntry present with rfl | old
    · exact bounded
    · exact before entry old
  · exact before entry (List.mem_of_mem_filter present)
  · exact before entry present

theorem apply_bounded (encoded : cmd.encode = .ok raw) {sm : KVStateMachine}
    (pairs : ∀ entry ∈ sm.store.snapshot, boundedKV entry = true)
    (rows : ∀ row ∈ sm.dedup.entries, boundedDedup row = true) :
    (∀ entry ∈ (sm.apply cmd).1.store.snapshot, boundedKV entry = true) ∧
      ∀ row ∈ (sm.apply cmd).1.dedup.entries, boundedDedup row = true := by
  obtain ⟨pair, row⟩ := encode_bounded encoded
  rcases sm.apply_cases cmd with ⟨-, same⟩ | ⟨prev, result, -, -, same, -⟩
  · rw [same]
    rcases sm.record_cases cmd with ⟨later, error, recorded⟩ | ⟨later, recorded⟩
    · rw [recorded]
      exact ⟨pairs, rows⟩
    · rw [recorded]
      refine ⟨effect_bounded pair pairs, fun other present => ?_⟩
      rcases SortedMap.mem_insertEntry present with rfl | old
      · exact row
      · exact rows other old
  · rw [same]
    exact ⟨pairs, rows⟩

/-- The layers agree on a command exactly if the log can hold it: the header and the parts of the command together must
not be longer than the log allows for a command. -/
theorem fits_iff (crc : Bytes → UInt32) (cmd : Command) (raw : Bytes) (encoded : cmd.encode = .ok raw) :
    cmd.Fits crc raw ↔
      commandHeaderLen + cmd.clientID.length + cmd.key.length + cmd.value.length ≤ maxCommandSize := by
  obtain ⟨_, _, _, length⟩ := encode_ok encoded
  rw [← length]
  constructor
  · intro fits
    have empty : ∃ data, encodeState crc ⟨0, [], []⟩ = .ok data :=
      ⟨_, encodeState_of_bounds crc (Nat.zero_le _) (Nat.zero_le _) (List.forall_mem_nil _)⟩
    obtain ⟨data, accepted⟩ := fits.log 0 [] [] [] 0 0 empty (by decide)
    exact (encodeState_ok crc accepted).2.2.1 _ List.mem_cons_self
  · intro short
    refine ⟨?_, fun named type known value part => encode_record encoded named known part, ?_⟩
    · rintro currentTerm votedFor before after index term ⟨data, accepted⟩ room
      obtain ⟨vote, _, each, _⟩ := encodeState_ok crc accepted
      refine ⟨_, encodeState_of_bounds crc vote ?_ fun e present => ?_⟩
      · simp only [List.length_append, List.length_cons] at room ⊢
        omega
      · rcases List.mem_append.mp present with old | later
        · exact each e (List.mem_append_left _ old)
        · rcases List.mem_cons.mp later with rfl | old
          · exact short
          · exact each e (List.mem_append_right _ old)
    · rintro sm known ⟨data, created⟩ fewKeys fewRows
      obtain ⟨_, _, pairs, rows, _⟩ := KVStateMachine.createSnapshot_eq_ok.mp created
      obtain ⟨pairsAfter, rowsAfter⟩ := apply_bounded encoded pairs rows
      have after := KVStateMachine.createSnapshot_eq_ok.mpr ⟨fewKeys, fewRows, pairsAfter, rowsAfter, rfl⟩
      exact ⟨_, after, fun small =>
        ⟨_, decode_createSnapshot after (KVStateMachine.apply_keeps_known known cmd) small⟩⟩

/-- A write with one byte each for the client, the key and the value. -/
theorem fits_iff_short :
    ∃ raw, (newPutCommand [99] 1 [107] [118]).encode = .ok raw ∧ (newPutCommand [99] 1 [107] [118]).Fits checksum raw :=
  ⟨_, rfl, (fits_iff checksum (newPutCommand [99] 1 [107] [118]) _ rfl).mpr (by decide)⟩

theorem full_value {value : Bytes} (full : value.length = maxValueLen) :
    ∃ raw, (newPutCommand [99] 1 [107] value).encode = .ok raw ∧
      encodeState checksum ⟨1, [110, 49], [⟨1, 1, raw⟩]⟩ = .error (.commandTooLong 1 1048599) := by
  have encoded : ∃ raw, (newPutCommand [99] 1 [107] value).encode = .ok raw := by
    unfold encode newPutCommand
    dsimp only
    rw [full, if_neg (by decide), if_neg (by decide), if_neg (by decide), if_neg (Nat.lt_irrefl _)]
    exact ⟨_, rfl⟩
  obtain ⟨raw, encoded⟩ := encoded
  obtain ⟨_, _, _, length⟩ := encode_ok encoded
  have total : commandHeaderLen + 1 + 1 + maxValueLen = 1048599 := by decide
  have long : raw.length = 1048599 := by
    rw [length]
    change commandHeaderLen + 1 + 1 + value.length = 1048599
    rw [full, total]
  have vote : ¬Raft.Words.maxVotedForLen < List.length ([110, 49] : Bytes) := by decide
  have count : ¬maxLogEntries < 1 := by decide
  have found : maxCommandSize < 1048599 := by decide
  refine ⟨raw, encoded, ?_⟩
  unfold encodeState
  dsimp only
  rw [if_neg vote, List.length_singleton, if_neg count]
  simp only [List.find?_cons, long, decide_eq_true found]

theorem full_value_refused :
    ∃ raw, (newPutCommand [99] 1 [107] (List.replicate maxValueLen 0)).encode = .ok raw ∧
      encodeState checksum ⟨1, [110, 49], [⟨1, 1, raw⟩]⟩ = .error (.commandTooLong 1 1048599) :=
  full_value List.length_replicate

end Command

end ForgeDB.StateMachine
