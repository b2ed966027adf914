import ForgeDB.Data.Cursor
import Mathlib.Data.List.Pairwise
import ForgeDB.Raft.Words.Node

/-!
The files a node keeps: its durable state and its snapshot, each behind a magic number and a version and in
front of a checksum. The decoders accept exactly what the encoders write, except that the encoder lets through
states that the decoder finds too large.
-/

namespace ForgeDB.Raft.Words

def raftMagic : Bytes := [70, 111, 114, 103, 101, 82, 80, 49]

def raftFormatVersion1 : Nat := 1

def maxVotedForLen : Nat := 4096

def maxLogEntries : Nat := 2 ^ 20

def maxCommandSize : Nat := 2 ^ 20

def maxStateSize : Nat := 2 ^ 30

def raftHeaderSize : Nat := 8 + 4 + 8 + 4

def snapshotMagic : Bytes := [70, 111, 114, 103, 101, 83, 83, 49]

def snapshotFormatVersion1 : Nat := 1

def maxSnapshotDataSize : Nat := 2 ^ 28

def maxSnapshotFileSize : Nat := 2 ^ 29

def snapshotHeaderSize : Nat := 8 + 4 + 8 + 8 + 4

structure PersistentState where
  currentTerm : UInt64
  votedFor : Bytes
  log : List LogEntry
  deriving DecidableEq, Repr

structure Snapshot where
  lastIncludedIndex : UInt64
  lastIncludedTerm : UInt64
  data : Bytes
  deriving DecidableEq, Repr

inductive FormatError where
  | votedForTooLong (length : Nat)
  | logTooLong (count : Nat)
  | commandTooLong (index : UInt64) (length : Nat)
  | snapshotDataTooLong (length : Nat)
  | stateTooLarge (length : Nat)
  | truncatedHeader (length : Nat)
  | badMagic
  | badVersion (version : Nat)
  | truncatedFile (length : Nat)
  | checksumMismatch
  | votedForLength (length : Nat)
  | truncatedVotedFor
  | truncatedEntryCount
  | entryCount (count : Nat)
  | truncatedEntry (entry : Nat)
  | commandLength (entry length : Nat)
  | truncatedCommand (entry : Nat)
  | indexZero
  | indexMismatch (entry : Nat) (index wantIndex : UInt64)
  | termDecreases (entry : Nat) (term prevTerm : UInt64)
  | trailingBytes
  | lastTermAbove (prevTerm currentTerm : UInt64)
  | snapshotTooLarge (length : Nat)
  | truncatedSnapshot (length : Nat)
  | badSnapshotMagic
  | badSnapshotVersion (version : Nat)
  | snapshotChecksumMismatch
  | truncatedDataLength
  | dataLength (length : Nat)
  | dataMismatch (length remaining : Nat)
  deriving DecidableEq, Repr

def FormatError.wrapsErrCorrupt : FormatError → Bool
  | votedForTooLong _ | logTooLong _ | commandTooLong _ _ | snapshotDataTooLong _ => false
  | _ => true

def FormatError.detail : FormatError → String
  | votedForTooLong length => s!"raft: votedFor of {length} bytes exceeds maximum of {maxVotedForLen}"
  | logTooLong count => s!"raft: log of {count} entries exceeds maximum of {maxLogEntries}"
  | commandTooLong index length =>
    s!"raft: log entry {index} command of {length} bytes exceeds maximum of {maxCommandSize}"
  | snapshotDataTooLong length => s!"raft: snapshot data of {length} bytes exceeds maximum of {maxSnapshotDataSize}"
  | stateTooLarge length => s!"raft: persisted state of {length} bytes exceeds maximum of {maxStateSize}"
  | truncatedHeader length => s!"raft: truncated header ({length} bytes)"
  | badMagic => "raft: bad magic"
  | badVersion version => s!"raft: unsupported format version {version}"
  | truncatedFile length => s!"raft: truncated file ({length} bytes)"
  | checksumMismatch => "raft: checksum mismatch"
  | votedForLength length => s!"raft: votedFor length {length} exceeds maximum of {maxVotedForLen}"
  | truncatedVotedFor => "raft: truncated votedFor"
  | truncatedEntryCount => "raft: truncated log entry count"
  | entryCount count => s!"raft: log entry count {count} exceeds maximum of {maxLogEntries}"
  | truncatedEntry entry => s!"raft: truncated log entry {entry}"
  | commandLength entry length =>
    s!"raft: log entry {entry} command length {length} exceeds maximum of {maxCommandSize}"
  | truncatedCommand entry => s!"raft: truncated log entry {entry} command"
  | indexZero => "raft: log entry 0 has index 0, which is reserved for the sentinel"
  | indexMismatch entry index wantIndex => s!"raft: log entry {entry} has index {index}, want {wantIndex}"
  | termDecreases entry term prevTerm =>
    s!"raft: log entry {entry} term {term} is less than preceding entry's term {prevTerm}"
  | trailingBytes => "raft: trailing bytes after log entries"
  | lastTermAbove prevTerm currentTerm =>
    s!"raft: last log entry term {prevTerm} exceeds currentTerm {currentTerm}"
  | snapshotTooLarge length =>
    s!"raft: persisted snapshot of {length} bytes exceeds maximum of {maxSnapshotFileSize}"
  | truncatedSnapshot length => s!"raft: truncated snapshot ({length} bytes)"
  | badSnapshotMagic => "raft: snapshot: bad magic"
  | badSnapshotVersion version => s!"raft: snapshot: unsupported format version {version}"
  | snapshotChecksumMismatch => "raft: snapshot: checksum mismatch"
  | truncatedDataLength => "raft: snapshot: truncated data length"
  | dataLength length => s!"raft: snapshot: data length {length} exceeds maximum of {maxSnapshotDataSize}"
  | dataMismatch length remaining =>
    s!"raft: snapshot: truncated or trailing bytes after data (declared {length}, have {remaining})"

def FormatError.text (error : FormatError) : String :=
  if error.wrapsErrCorrupt then error.detail ++ ": raft: corrupt persisted state" else error.detail

section Codec

/-! The checksum is any function of the bytes; the source has CRC-32C. -/

variable (crc : Bytes → UInt32)

def encodeEntry (e : LogEntry) : Bytes := putUint64 e.index ++ (putUint64 e.term ++ putBytes e.command)

def stateBody (state : PersistentState) : Bytes :=
  raftMagic ++ (putUint32 raftFormatVersion1 ++ (putUint64 state.currentTerm ++ (putBytes state.votedFor ++
    (putUint32 state.log.length ++ state.log.flatMap encodeEntry))))

def encodeState (state : PersistentState) : Except FormatError Bytes :=
  if maxVotedForLen < state.votedFor.length then .error (.votedForTooLong state.votedFor.length)
  else if maxLogEntries < state.log.length then .error (.logTooLong state.log.length)
  else
    match state.log.find? fun e => maxCommandSize < e.command.length with
    | some e => .error (.commandTooLong e.index e.command.length)
    | none => .ok (Cursor.sealed crc (stateBody state))

structure Progress where
  i : Nat
  firstIndex : UInt64
  prevTerm : UInt64

open Cursor in
def readEntry (s : Progress) : Cursor FormatError (LogEntry × Progress) := do
  need (8 + 8 + 4) (.truncatedEntry s.i)
  let index ← u64
  let term ← u64
  let cmdLen ← u32
  refuse (maxCommandSize < cmdLen) (.commandLength s.i cmdLen)
  need cmdLen (.truncatedCommand s.i)
  let firstIndex := if s.i = 0 then index else s.firstIndex
  let wantIndex := s.firstIndex + UInt64.ofNat s.i
  refuse (s.i = 0 ∧ index = 0) .indexZero
  refuse (s.i ≠ 0 ∧ index ≠ wantIndex) (.indexMismatch s.i index wantIndex)
  refuse (term < s.prevTerm) (.termDecreases s.i term s.prevTerm)
  let command ← bytes cmdLen
  pure (⟨index, term, command⟩, ⟨s.i + 1, firstIndex, term⟩)

open Cursor in
def readState (data : Bytes) : Cursor FormatError PersistentState := do
  refuse (maxStateSize < data.length) (.stateTooLarge data.length)
  refuse (data.length < raftHeaderSize) (.truncatedHeader data.length)
  header data raftMagic raftFormatVersion1 .badMagic .badVersion
  refuse (data.length < raftHeaderSize + 4) (.truncatedFile data.length)
  let body ← checkSealed crc data .checksumMismatch
  seek (body.drop 12)
  let currentTerm ← u64
  let votedForLen ← u32
  refuse (maxVotedForLen < votedForLen) (.votedForLength votedForLen)
  need votedForLen .truncatedVotedFor
  let votedFor ← bytes votedForLen
  need 4 .truncatedEntryCount
  let numEntries ← u32
  refuse (maxLogEntries < numEntries) (.entryCount numEntries)
  let (entries, last) ← times readEntry numEntries ⟨0, 0, 0⟩
  let size ← left
  refuse (size ≠ 0) .trailingBytes
  refuse (0 < numEntries ∧ currentTerm < last.prevTerm) (.lastTermAbove last.prevTerm currentTerm)
  pure ⟨currentTerm, votedFor, entries⟩

def decodeState (data : Bytes) : Option (Except FormatError PersistentState) := (readState crc data).run data

def snapshotBody (snap : Snapshot) : Bytes :=
  snapshotMagic ++ (putUint32 snapshotFormatVersion1 ++ (putUint64 snap.lastIncludedIndex ++
    (putUint64 snap.lastIncludedTerm ++ putBytes snap.data)))

def encodeSnapshot (snap : Snapshot) : Except FormatError Bytes :=
  if maxSnapshotDataSize < snap.data.length then .error (.snapshotDataTooLong snap.data.length)
  else .ok (Cursor.sealed crc (snapshotBody snap))

open Cursor in
def readSnapshot (data : Bytes) : Cursor FormatError Snapshot := do
  refuse (maxSnapshotFileSize < data.length) (.snapshotTooLarge data.length)
  refuse (data.length < snapshotHeaderSize + 4) (.truncatedSnapshot data.length)
  header data snapshotMagic snapshotFormatVersion1 .badSnapshotMagic .badSnapshotVersion
  let body ← checkSealed crc data .snapshotChecksumMismatch
  seek (body.drop 12)
  let lastIncludedIndex ← u64
  let lastIncludedTerm ← u64
  need 4 .truncatedDataLength
  let dataLen ← u32
  refuse (maxSnapshotDataSize < dataLen) (.dataLength dataLen)
  let size ← left
  refuse (size ≠ dataLen) (.dataMismatch dataLen size)
  let payload ← bytes dataLen
  pure ⟨lastIncludedIndex, lastIncludedTerm, payload⟩

def decodeSnapshot (data : Bytes) : Option (Except FormatError Snapshot) := (readSnapshot crc data).run data

end Codec

/-! ### The decoders accept what the encoders write, and nothing else -/

def Progress.Accepts (s : Progress) (e : LogEntry) : Prop :=
  (s.i = 0 → e.index ≠ 0) ∧ (s.i ≠ 0 → e.index = s.firstIndex + UInt64.ofNat s.i) ∧ s.prevTerm ≤ e.term ∧
    e.command.length ≤ maxCommandSize

def Progress.next (s : Progress) (e : LogEntry) : Progress :=
  ⟨s.i + 1, if s.i = 0 then e.index else s.firstIndex, e.term⟩

theorem readEntry_encode {s : Progress} {e : LogEntry} (accepted : s.Accepts e) (rest : Bytes) :
    readEntry s (encodeEntry e ++ rest) = .ok (e, s.next e) rest := by
  obtain ⟨positive, consecutive, ordered, short⟩ := accepted
  have small : e.command.length < 2 ^ 32 := lt_of_le_of_lt short (by decide)
  simp only [encodeEntry, putBytes, List.append_assoc]
  rw [readEntry,
    Cursor.bind_ok (Cursor.need_long (by simp only [List.length_append, putUint64_length, putUint32_length]; omega) _),
    Cursor.bind_ok (Cursor.u64_put _ _), Cursor.bind_ok (Cursor.u64_put _ _), Cursor.bind_ok (Cursor.u32_put small _),
    Cursor.bind_ok (Cursor.refuse_not (Nat.not_lt.mpr short) _ _),
    Cursor.bind_ok (Cursor.need_long (by rw [List.length_append]; omega) _),
    Cursor.bind_ok (Cursor.refuse_not (fun both => positive both.1 both.2) _ _),
    Cursor.bind_ok (Cursor.refuse_not (fun both => both.2 (consecutive both.1)) _ _),
    Cursor.bind_ok (Cursor.refuse_not (UInt64.not_lt.mpr ordered) _ _), Cursor.bind_ok (Cursor.bytes_append _ _)]
  rfl

theorem readEntry_ends (s : Progress) (data : Bytes) :
    (readEntry s).Ends data
      (fun read rest => data = encodeEntry read.1 ++ rest ∧ s.Accepts read.1 ∧ read.2 = s.next read.1)
      (fun error => error.wrapsErrCorrupt = true) := by
  refine Cursor.Ends.bind (Cursor.Ends.need (fun _ => rfl) fun long => ?_)
  refine Cursor.Ends.bind (Cursor.Ends.u64 (by omega) ?_)
  rintro index afterIndex rfl
  rw [List.length_append, putUint64_length] at long
  refine Cursor.Ends.bind (Cursor.Ends.u64 (by omega) ?_)
  rintro term afterTerm rfl
  rw [List.length_append, putUint64_length] at long
  refine Cursor.Ends.bind (Cursor.Ends.u32 (by omega) ?_)
  rintro cmdLen afterLen rfl -
  refine Cursor.Ends.bind (Cursor.Ends.refuse (fun _ => rfl) fun short => ?_)
  refine Cursor.Ends.bind (Cursor.Ends.need (fun _ => rfl) fun inside => ?_)
  refine Cursor.Ends.bind (Cursor.Ends.refuse (fun _ => rfl) fun positive => ?_)
  refine Cursor.Ends.bind (Cursor.Ends.refuse (fun _ => rfl) fun consecutive => ?_)
  refine Cursor.Ends.bind (Cursor.Ends.refuse (fun _ => rfl) fun ordered => ?_)
  refine Cursor.Ends.bind (Cursor.Ends.bytes inside ?_)
  rintro command rest rfl rfl
  refine Cursor.Ends.pure ⟨?_, ⟨fun first zero => positive ⟨first, zero⟩, fun later => ?_, UInt64.not_lt.mp ordered,
    Nat.not_lt.mp short⟩, rfl⟩
  · simp only [encodeEntry, putBytes, List.append_assoc]
  · exact not_not.mp fun differs => consecutive ⟨later, differs⟩

/-- Indexes are consecutive, modulo the size of a word, from one that is not zero; terms never decrease and
stay at or below the current term. -/
structure PersistentState.Sound (state : PersistentState) : Prop where
  consecutive : ∃ first : UInt64, first ≠ 0 ∧
    ∀ slot e, state.log[slot]? = some e → e.index = first + UInt64.ofNat slot
  ordered : state.log.Pairwise fun first second => first.term ≤ second.term
  bounded : ∀ e ∈ state.log, e.term ≤ state.currentTerm

theorem foldl_prevTerm (log : List LogEntry) (s : Progress) :
    (log.foldl Progress.next s).prevTerm = (log.getLast?.map LogEntry.term).getD s.prevTerm := by
  induction log generalizing s with
  | nil => rfl
  | cons e log ih =>
    rw [List.foldl_cons, ih, List.getLast?_cons]
    cases log.getLast? <;> rfl

theorem along_later {s : Progress} (later : s.i ≠ 0) (log : List LogEntry) :
    Cursor.Along Progress.Accepts Progress.next s log ↔
      (∀ slot e, log[slot]? = some e → e.index = s.firstIndex + UInt64.ofNat (s.i + slot)) ∧
        (∀ e ∈ log, s.prevTerm ≤ e.term) ∧ (log.Pairwise fun first second => first.term ≤ second.term) ∧
          ∀ e ∈ log, e.command.length ≤ maxCommandSize := by
  induction log generalizing s with
  | nil => exact ⟨fun _ => ⟨nofun, nofun, List.Pairwise.nil, nofun⟩, fun _ => trivial⟩
  | cons e log ih =>
    have next : (s.next e).i ≠ 0 := Nat.succ_ne_zero _
    have first : (s.next e).firstIndex = s.firstIndex := if_neg later
    rw [Cursor.Along, ih next, first]
    constructor
    · rintro ⟨⟨-, here, above, short⟩, numbered, higher, ordered, bounded⟩
      refine ⟨?_, ?_, List.pairwise_cons.mpr ⟨higher, ordered⟩, ?_⟩
      · rintro (_ | slot) found present
        · cases present
          exact here later
        · rw [numbered slot found present,
            show (s.next e).i + slot = s.i + (slot + 1) from Nat.add_right_comm s.i 1 slot]
      · rintro found (_ | ⟨_, old⟩)
        · exact above
        · exact UInt64.le_trans above (higher found old)
      · rintro found (_ | ⟨_, old⟩)
        · exact short
        · exact bounded found old
    · rintro ⟨numbered, higher, ordered, bounded⟩
      obtain ⟨here, ordered⟩ := List.pairwise_cons.mp ordered
      refine ⟨⟨fun zero => absurd zero later, fun _ => numbered 0 e rfl, higher e List.mem_cons_self,
        bounded e List.mem_cons_self⟩, ?_, here, ordered, fun found old => bounded found (List.mem_cons_of_mem _ old)⟩
      intro slot found present
      rw [numbered (slot + 1) found present,
        show (s.next e).i + slot = s.i + (slot + 1) from Nat.add_right_comm s.i 1 slot]

theorem along_start (log : List LogEntry) :
    Cursor.Along Progress.Accepts Progress.next ⟨0, 0, 0⟩ log ↔
      (∃ first : UInt64, first ≠ 0 ∧ ∀ slot e, log[slot]? = some e → e.index = first + UInt64.ofNat slot) ∧
        (log.Pairwise fun first second => first.term ≤ second.term) ∧
          ∀ e ∈ log, e.command.length ≤ maxCommandSize := by
  cases log with
  | nil => exact ⟨fun _ => ⟨⟨1, by decide, nofun⟩, List.Pairwise.nil, nofun⟩, fun _ => trivial⟩
  | cons e log =>
    have later : (Progress.next ⟨0, 0, 0⟩ e).i ≠ 0 := Nat.succ_ne_zero _
    rw [Cursor.Along, along_later later]
    simp only [Progress.next, if_true, Nat.zero_add]
    constructor
    · rintro ⟨⟨positive, -, -, short⟩, numbered, higher, ordered, bounded⟩
      refine ⟨⟨e.index, positive rfl, ?_⟩, List.pairwise_cons.mpr ⟨higher, ordered⟩, ?_⟩
      · rintro (_ | slot) found present
        · cases present
          exact (UInt64.add_zero _).symm
        · rw [numbered slot found present, Nat.add_comm]
      · rintro found (_ | ⟨_, old⟩)
        · exact short
        · exact bounded found old
    · rintro ⟨⟨first, positive, numbered⟩, ordered, bounded⟩
      have here : e.index = first := by
        rw [numbered 0 e rfl]
        exact UInt64.add_zero first
      obtain ⟨higher, ordered⟩ := List.pairwise_cons.mp ordered
      refine ⟨⟨fun _ => by rwa [here], fun zero => absurd rfl zero, UInt64.zero_le, bounded e List.mem_cons_self⟩, ?_,
        higher, ordered, fun found old => bounded found (List.mem_cons_of_mem _ old)⟩
      intro slot found present
      rw [numbered (slot + 1) found present, here, Nat.add_comm]

theorem le_prevTerm {log : List LogEntry} (ordered : log.Pairwise fun first second => first.term ≤ second.term)
    (s : Progress) : ∀ e ∈ log, e.term ≤ (log.foldl Progress.next s).prevTerm := by
  intro e present
  rw [foldl_prevTerm]
  have nonempty : log ≠ [] := List.ne_nil_of_mem present
  rw [List.getLast?_eq_some_getLast nonempty]
  exact ordered.rel_getLast_of_rel_getLast_getLast present (UInt64.le_refl _)

section

variable (crc : Bytes → UInt32)

theorem encodeState_ok {state : PersistentState} {data : Bytes} (encoded : encodeState crc state = .ok data) :
    state.votedFor.length ≤ maxVotedForLen ∧ state.log.length ≤ maxLogEntries ∧
      (∀ e ∈ state.log, e.command.length ≤ maxCommandSize) ∧ data = Cursor.sealed crc (stateBody state) := by
  unfold encodeState at encoded
  split at encoded
  · cases encoded
  split at encoded
  · cases encoded
  split at encoded
  · cases encoded
  · rename_i vote count _ absent
    cases encoded
    refine ⟨Nat.not_lt.mp vote, Nat.not_lt.mp count, fun e present => ?_, rfl⟩
    have short := List.find?_eq_none.mp absent e present
    rwa [decide_eq_true_eq, Nat.not_lt] at short

theorem encodeState_of_bounds {state : PersistentState} (vote : state.votedFor.length ≤ maxVotedForLen)
    (count : state.log.length ≤ maxLogEntries) (short : ∀ e ∈ state.log, e.command.length ≤ maxCommandSize) :
    encodeState crc state = .ok (Cursor.sealed crc (stateBody state)) := by
  have absent : (state.log.find? fun e => maxCommandSize < e.command.length) = none := by
    rw [List.find?_eq_none]
    intro e present
    rw [decide_eq_true_eq, Nat.not_lt]
    exact short e present
  rw [encodeState, if_neg (Nat.not_lt.mpr vote), if_neg (Nat.not_lt.mpr count), absent]

theorem readState_ends (data : Bytes) :
    (readState crc data).Ends data (fun state _ => encodeState crc state = .ok data ∧ state.Sound)
      (fun error => error.wrapsErrCorrupt = true) := by
  refine Cursor.Ends.bind (Cursor.Ends.refuse (fun _ => rfl) fun _ => ?_)
  refine Cursor.Ends.bind (Cursor.Ends.refuse (fun _ => rfl) fun header => ?_)
  simp only [raftHeaderSize] at header
  refine Cursor.Ends.bind (Cursor.Ends.header (by omega) rfl (fun _ => rfl) fun start => ?_)
  refine Cursor.Ends.bind (Cursor.Ends.refuse (fun _ => rfl) fun long => ?_)
  simp only [raftHeaderSize] at long
  refine Cursor.Ends.bind (Cursor.Ends.checkSealed (by omega) rfl ?_)
  rintro body rfl
  rw [Cursor.sealed_length] at long
  -- The header lies in the body, so the body is the header and what is still to be read.
  have whole := Cursor.header_of_sealed rfl (by omega) start
  generalize body.drop 12 = rest at whole
  subst whole
  clear start
  simp only [List.length_append, putUint32_length, show raftMagic.length = 8 from rfl] at long
  refine Cursor.Ends.bind (Cursor.Ends.seek (Cursor.Ends.bind (Cursor.Ends.u64 (by omega) ?_)))
  rintro currentTerm afterTerm rfl
  rw [List.length_append, putUint64_length] at long
  refine Cursor.Ends.bind (Cursor.Ends.u32 (by omega) ?_)
  rintro votedForLen afterLen rfl -
  refine Cursor.Ends.bind (Cursor.Ends.refuse (fun _ => rfl) fun vote => ?_)
  refine Cursor.Ends.bind (Cursor.Ends.need (fun _ => rfl) fun inside => ?_)
  refine Cursor.Ends.bind (Cursor.Ends.bytes inside ?_)
  rintro votedFor afterVote rfl rfl
  refine Cursor.Ends.bind (Cursor.Ends.need (fun _ => rfl) fun counted => ?_)
  refine Cursor.Ends.bind (Cursor.Ends.u32 counted ?_)
  rintro numEntries afterCount rfl -
  refine Cursor.Ends.bind (Cursor.Ends.refuse (fun _ => rfl) fun few => ?_)
  refine Cursor.Ends.bind ((Cursor.Ends.times readEntry_ends numEntries _ _).mono ?_)
  rintro ⟨log, last⟩ rest ⟨rfl, rfl, along, reached⟩
  dsimp only at few along reached ⊢
  refine Cursor.Ends.bind (Cursor.Ends.left (Cursor.Ends.bind (Cursor.Ends.refuse (fun _ => rfl) fun spent => ?_)))
  refine Cursor.Ends.bind (Cursor.Ends.refuse (fun _ => rfl) fun bounded => ?_)
  obtain ⟨consecutive, ordered, short⟩ := (along_start log).mp along
  obtain rfl : rest = [] := List.eq_nil_of_length_eq_zero (not_not.mp spent)
  refine Cursor.Ends.pure ⟨?_, consecutive, ordered, fun e present => ?_⟩
  · rw [encodeState_of_bounds crc (Nat.not_lt.mp vote) (Nat.not_lt.mp few) short]
    simp only [stateBody, putBytes, List.append_assoc, List.append_nil]
  · have below := le_prevTerm ordered ⟨0, 0, 0⟩ e present
    rw [← reached] at below
    have nonempty : 0 < log.length := List.length_pos_of_mem present
    exact UInt64.le_trans below (UInt64.not_lt.mp fun above => bounded ⟨nonempty, above⟩)

theorem readState_encode {state : PersistentState} {data : Bytes} (sound : state.Sound)
    (encoded : encodeState crc state = .ok data) (fits : data.length ≤ maxStateSize) :
    readState crc data data = .ok state [] := by
  obtain ⟨vote, few, short, rfl⟩ := encodeState_ok crc encoded
  have voteLength : state.votedFor.length < 2 ^ 32 := lt_of_le_of_lt vote (by decide)
  have count : state.log.length < 2 ^ 32 := lt_of_le_of_lt few (by decide)
  have along := (along_start state.log).mpr ⟨sound.consecutive, sound.ordered, short⟩
  have long : 28 ≤ (stateBody state).length := by
    simp only [stateBody, raftMagic, List.length_append, List.length_cons, List.length_nil, putUint32_length,
      putUint64_length, putBytes_length]
    omega
  have front : ∀ rest, Cursor.header (Cursor.sealed crc (stateBody state)) raftMagic raftFormatVersion1
      FormatError.badMagic FormatError.badVersion rest = .ok () rest := by
    intro rest
    rw [Cursor.sealed, stateBody, List.append_assoc, List.append_assoc]
    exact Cursor.header_put rfl (by decide) _ _ _ rest
  have entries := Cursor.times_encode (fun s e rest accepted => readEntry_encode accepted rest) along []
  rw [List.append_nil] at entries
  rw [readState, Cursor.bind_ok (Cursor.refuse_not (Nat.not_lt.mpr fits) _ _),
    Cursor.bind_ok (Cursor.refuse_not (by rw [Cursor.sealed_length, raftHeaderSize]; omega) _ _),
    Cursor.bind_ok (front _),
    Cursor.bind_ok (Cursor.refuse_not (by rw [Cursor.sealed_length, raftHeaderSize]; omega) _ _),
    Cursor.bind_ok (Cursor.checkSealed_sealed _ _ _ _), stateBody, Cursor.drop_header rfl,
    Cursor.bind_ok (Cursor.seek_apply _ _),
    Cursor.bind_ok (Cursor.u64_put _ _), putBytes, List.append_assoc, Cursor.bind_ok (Cursor.u32_put voteLength _),
    Cursor.bind_ok (Cursor.refuse_not (Nat.not_lt.mpr vote) _ _),
    Cursor.bind_ok (Cursor.need_long (by rw [List.length_append]; omega) _), Cursor.bind_ok (Cursor.bytes_append _ _),
    Cursor.bind_ok (Cursor.need_long (by rw [List.length_append, putUint32_length]; omega) _),
    Cursor.bind_ok (Cursor.u32_put count _), Cursor.bind_ok (Cursor.refuse_not (Nat.not_lt.mpr few) _ _),
    Cursor.bind_ok entries]
  dsimp only
  rw [Cursor.bind_ok (Cursor.left_apply _),
    Cursor.bind_ok (Cursor.refuse_not (show ¬([] : Bytes).length ≠ 0 from not_not.mpr rfl) _ _),
    Cursor.bind_ok (Cursor.refuse_not ?_ _ _)]
  · rfl
  · rintro ⟨some, above⟩
    have nonempty : state.log ≠ [] := List.ne_nil_of_length_pos some
    rw [foldl_prevTerm, List.getLast?_eq_some_getLast nonempty] at above
    exact UInt64.not_lt.mpr (sound.bounded _ (List.getLast_mem nonempty)) above

theorem readSnapshot_ends (data : Bytes) :
    (readSnapshot crc data).Ends data (fun snap _ => encodeSnapshot crc snap = .ok data)
      (fun error => error.wrapsErrCorrupt = true) := by
  refine Cursor.Ends.bind (Cursor.Ends.refuse (fun _ => rfl) fun _ => ?_)
  refine Cursor.Ends.bind (Cursor.Ends.refuse (fun _ => rfl) fun long => ?_)
  simp only [snapshotHeaderSize] at long
  refine Cursor.Ends.bind (Cursor.Ends.header (by omega) rfl (fun _ => rfl) fun start => ?_)
  refine Cursor.Ends.bind (Cursor.Ends.checkSealed (by omega) rfl ?_)
  rintro body rfl
  rw [Cursor.sealed_length] at long
  have whole := Cursor.header_of_sealed rfl (by omega) start
  generalize body.drop 12 = rest at whole
  subst whole
  clear start
  simp only [List.length_append, putUint32_length, show snapshotMagic.length = 8 from rfl] at long
  refine Cursor.Ends.bind (Cursor.Ends.seek (Cursor.Ends.bind (Cursor.Ends.u64 (by omega) ?_)))
  rintro lastIncludedIndex afterIndex rfl
  rw [List.length_append, putUint64_length] at long
  refine Cursor.Ends.bind (Cursor.Ends.u64 (by omega) ?_)
  rintro lastIncludedTerm afterTerm rfl
  refine Cursor.Ends.bind (Cursor.Ends.need (fun _ => rfl) fun counted => ?_)
  refine Cursor.Ends.bind (Cursor.Ends.u32 counted ?_)
  rintro dataLen afterLen rfl -
  refine Cursor.Ends.bind (Cursor.Ends.refuse (fun _ => rfl) fun short => ?_)
  refine Cursor.Ends.bind (Cursor.Ends.left (Cursor.Ends.bind (Cursor.Ends.refuse (fun _ => rfl) fun all => ?_)))
  obtain rfl := not_not.mp all
  refine Cursor.Ends.bind (Cursor.Ends.bytes (Nat.le_refl _) fun payload rest same length => Cursor.Ends.pure ?_)
  obtain rfl : rest = [] := by
    have lengths := congrArg List.length same
    rw [List.length_append, length] at lengths
    exact List.eq_nil_of_length_eq_zero (by omega)
  rw [List.append_nil] at same
  subst same
  rw [encodeSnapshot, if_neg short]
  rfl

/-- Both decoders are canonical and fail closed, whatever the checksum: any bytes are the one encoding of what is
decoded from them, which is sound, or they are refused as corrupt; no access leaves the bytes. -/
theorem decoders_exact (d : Bytes) :
    ((∃ s, decodeState crc d = some (.ok s) ∧ encodeState crc s = .ok d ∧ s.Sound) ∨
      ∃ error, decodeState crc d = some (.error error) ∧ error.wrapsErrCorrupt = true) ∧
    ((∃ p, decodeSnapshot crc d = some (.ok p) ∧ encodeSnapshot crc p = .ok d) ∨
      ∃ error, decodeSnapshot crc d = some (.error error) ∧ error.wrapsErrCorrupt = true) := by
  constructor
  · rcases (readState_ends crc d).run_cases with ⟨s, rest, ran, encoded, sound⟩ | ⟨error, ran, corrupt⟩
    · exact Or.inl ⟨s, ran, encoded, sound⟩
    · exact Or.inr ⟨error, ran, corrupt⟩
  · rcases (readSnapshot_ends crc d).run_cases with ⟨p, rest, ran, encoded⟩ | ⟨error, ran, corrupt⟩
    · exact Or.inl ⟨p, ran, encoded⟩
    · exact Or.inr ⟨error, ran, corrupt⟩

def PersistentState.size (state : PersistentState) : Nat :=
  raftHeaderSize + state.votedFor.length + 4 + (state.log.map fun e => 8 + 8 + 4 + e.command.length).sum + 4

theorem sealed_length_eq_size (state : PersistentState) :
    (Cursor.sealed crc (stateBody state)).length = state.size := by
  have entries :
      (state.log.flatMap encodeEntry).length = (state.log.map fun e => 8 + 8 + 4 + e.command.length).sum := by
    rw [List.length_flatMap]
    congr 1
    apply List.map_congr_left
    intro e _
    simp only [encodeEntry, List.length_append, putUint64_length, putBytes_length]
    omega
  simp only [Cursor.sealed_length, stateBody, raftMagic, List.length_append, List.length_cons, List.length_nil,
    putUint32_length, putUint64_length, putBytes_length, entries, PersistentState.size, raftHeaderSize]
  omega

theorem decodeState_large {data : Bytes} (large : maxStateSize < data.length) :
    decodeState crc data = some (.error (.stateTooLarge data.length)) := by
  have refused : Cursor.refuse (maxStateSize < data.length) (FormatError.stateTooLarge data.length) data =
      .error (.stateTooLarge data.length) := if_pos large
  rw [decodeState, Cursor.run, readState, Cursor.bind_error refused]
  rfl

/-- A sound state that the encoder accepts is read back exactly if its file is no larger than the decoder admits. -/
theorem decodeState_encodeState {state : PersistentState} {data : Bytes} (sound : state.Sound)
    (encoded : encodeState crc state = .ok data) :
    decodeState crc data = some (.ok state) ↔ state.size ≤ maxStateSize := by
  obtain ⟨-, -, -, same⟩ := encodeState_ok crc encoded
  have length : data.length = state.size := by rw [same, sealed_length_eq_size]
  constructor
  · intro read
    by_contra large
    rw [decodeState_large crc (by rw [length]; exact Nat.lt_of_not_le large)] at read
    cases read
  · intro fits
    rw [decodeState, Cursor.run, readState_encode crc sound encoded (by rwa [length])]
    rfl

end

def oversized : PersistentState :=
  ⟨1, [], (List.range 1024).map fun i => ⟨1 + UInt64.ofNat i, 1, List.replicate maxCommandSize 0⟩⟩

theorem oversized_size : oversized.size = 2 ^ 30 + 20512 := by
  have entries : (oversized.log.map fun e => 8 + 8 + 4 + e.command.length) =
      List.replicate 1024 (8 + 8 + 4 + maxCommandSize) := by
    simp only [oversized, List.map_map, Function.comp_def, List.length_replicate, List.map_const', List.length_range]
  rw [PersistentState.size, entries, List.sum_replicate_nat]
  rfl

theorem oversized_sound : oversized.Sound where
  consecutive := by
    refine ⟨1, by decide, fun slot e present => ?_⟩
    simp only [oversized, List.getElem?_map, Option.map_eq_some_iff] at present
    obtain ⟨i, inside, rfl⟩ := present
    rw [List.getElem?_range (by simpa using (List.getElem?_eq_some_iff.mp inside).1), Option.some.injEq] at inside
    rw [inside]
  ordered := by
    simp only [oversized, List.pairwise_map]
    exact List.pairwise_of_forall fun _ _ => UInt64.le_refl 1
  bounded := by
    simp only [oversized, List.mem_map]
    rintro e ⟨i, -, rfl⟩
    exact UInt64.le_refl 1

/-- The encoder writes this state, and the decoder refuses the file for its size. -/
theorem oversized_unreadable :
    oversized.Sound ∧ ∃ data, encodeState checksum oversized = .ok data ∧
      decodeState checksum data = some (.error (.stateTooLarge (2 ^ 30 + 20512))) := by
  have count : oversized.log.length = 1024 := by
    simp only [oversized, List.length_map, List.length_range]
  have short : ∀ e ∈ oversized.log, e.command.length ≤ maxCommandSize := by
    simp only [oversized, List.mem_map]
    rintro e ⟨i, -, rfl⟩
    exact Nat.le_of_eq List.length_replicate
  have encoded := encodeState_of_bounds checksum (Nat.zero_le _) (by rw [count]; decide) short
  have length := sealed_length_eq_size checksum oversized
  rw [oversized_size] at length
  refine ⟨oversized_sound, _, encoded, ?_⟩
  rw [decodeState_large checksum (by rw [length]; decide), length]

def single : PersistentState := ⟨1, [97], [⟨1, 1, [5]⟩]⟩

theorem single_sound : single.Sound where
  consecutive := by
    refine ⟨1, by decide, ?_⟩
    rintro (_ | slot) e present
    · cases present
      rfl
    · cases present
  ordered := List.pairwise_singleton _ _
  bounded := by
    intro e present
    cases List.mem_singleton.mp present
    decide

theorem decodeState_encodeState_single :
    ∃ data, encodeState checksum single = .ok data ∧
      (decodeState checksum data = some (.ok single) ↔ single.size ≤ maxStateSize) := by
  have encoded : encodeState checksum single = .ok (Cursor.sealed checksum (stateBody single)) :=
    encodeState_of_bounds checksum (by decide) (by decide) (by decide)
  exact ⟨_, encoded, decodeState_encodeState checksum single_sound encoded⟩

/-! ### The states that a node saves -/

/-- The state as it is written, with the vote as the bytes of its string. -/
def onDisk (state : Machine.PersistentState) : PersistentState :=
  ⟨state.currentTerm, state.votedFor.toUTF8.data.toList, state.log.items⟩

theorem onDisk_inj {state other : Machine.PersistentState} (same : onDisk state = onDisk other) : state = other := by
  obtain ⟨terms, votes, logs⟩ := (PersistentState.mk.injEq ..).mp same
  have vote := String.toByteArray_inj.mp (ByteArray.ext (Array.toList_inj.mp votes))
  exact (Machine.PersistentState.mk.injEq ..).mpr ⟨terms, vote, Slice.ext logs⟩

/-- What a node saves is loaded as it was, as long as its file is no larger than the decoder admits: what is decoded
stands for no other state. -/
theorem saved_loads (crc : Bytes → UInt32) {state : Machine.PersistentState} {data : Bytes}
    (sound : (onDisk state).Sound) (encoded : encodeState crc (onDisk state) = .ok data)
    (fits : (onDisk state).size ≤ maxStateSize) :
    decodeState crc data = some (.ok (onDisk state)) ∧
      ∀ other, decodeState crc data = some (.ok (onDisk other)) → other = state := by
  obtain ⟨-, -, -, same⟩ := encodeState_ok crc encoded
  have length : data.length = (onDisk state).size := by rw [same, sealed_length_eq_size]
  have loaded : decodeState crc data = some (.ok (onDisk state)) := by
    rw [decodeState, Cursor.run, readState_encode crc sound encoded (by rwa [length])]
    rfl
  refine ⟨loaded, fun other read => ?_⟩
  rw [loaded, Option.some.injEq, Except.ok.injEq] at read
  exact (onDisk_inj read).symm

end ForgeDB.Raft.Words
