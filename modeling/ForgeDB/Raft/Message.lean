import ForgeDB.Data.Encoding
import ForgeDB.Raft.Log

/-!
What nodes say to each other and what they keep on disk: the three remote calls with their
replies, the durable state and snapshot, and the persister that holds them.
-/

namespace ForgeDB.Raft

structure RequestVoteArgs where
  term : Nat
  candidateID : String
  lastLogIndex : Nat
  lastLogTerm : Nat
  deriving DecidableEq, Repr

structure RequestVoteReply where
  term : Nat
  voteGranted : Bool
  deriving DecidableEq, Repr

structure AppendEntriesArgs where
  term : Nat
  leaderID : String
  prevLogIndex : Nat
  prevLogTerm : Nat
  entries : List LogEntry
  leaderCommit : Nat
  deriving DecidableEq, Repr

structure AppendEntriesReply where
  term : Nat
  success : Bool
  deriving DecidableEq, Repr

structure InstallSnapshotArgs where
  term : Nat
  leaderID : String
  lastIncludedIndex : Nat
  lastIncludedTerm : Nat
  data : List UInt8
  chunked : Bool
  offset : Nat
  final : Bool
  totalSize : Nat
  checksum : UInt32
  deriving DecidableEq, Repr

structure InstallSnapshotReply where
  term : Nat
  success : Bool
  deriving DecidableEq, Repr

structure PersistentState where
  currentTerm : Nat
  votedFor : String
  log : List LogEntry
  deriving DecidableEq, Repr

structure Snapshot where
  lastIncludedIndex : Nat
  lastIncludedTerm : Nat
  data : List UInt8
  deriving DecidableEq, Repr

/-- The durable copies, and which of the coming saves fail. A failing save changes no copy. -/
structure Persister where
  state : Option PersistentState
  snapshot : Option Snapshot
  faults : List Bool
  deriving DecidableEq, Repr, Inhabited

namespace Persister

def saveState (p : Persister) (state : PersistentState) : Persister × Bool :=
  match p.faults with
  | true :: later => ({ p with faults := later }, false)
  | later => ({ p with state := some state, faults := later.tail }, true)

def saveSnapshot (p : Persister) (snap : Snapshot) : Persister × Bool :=
  match p.faults with
  | true :: later => ({ p with faults := later }, false)
  | later => ({ p with snapshot := some snap, faults := later.tail }, true)

theorem saveState_cases (p : Persister) (state : PersistentState) :
    (∃ later, p.saveState state = (⟨p.state, p.snapshot, later⟩, false)) ∨
      ∃ later, p.saveState state = (⟨some state, p.snapshot, later⟩, true) := by
  unfold saveState
  split
  · exact Or.inl ⟨_, rfl⟩
  · exact Or.inr ⟨_, rfl⟩

theorem saveSnapshot_cases (p : Persister) (snap : Snapshot) :
    (∃ later, p.saveSnapshot snap = (⟨p.state, p.snapshot, later⟩, false)) ∨
      ∃ later, p.saveSnapshot snap = (⟨p.state, some snap, later⟩, true) := by
  unfold saveSnapshot
  split
  · exact Or.inl ⟨_, rfl⟩
  · exact Or.inr ⟨_, rfl⟩

end Persister

inductive RaftError where
  | notLeader
  | readBarrierUnavailable
  | invalidSnapshotZero
  | invalidSnapshotBehind (index boundary : Nat)
  | invalidSnapshotUnapplied (index lastApplied : Nat)
  | invalidSnapshotUncommitted (index commitIndex : Nat)
  | invalidSnapshotAbsent (index : Nat)
  | compactAbsent (index : Nat)
  | persistProposal
  | persistSnapshot
  | persistCompacted
  | noPendingSnapshot (index : Nat)
  | confirmUncommitted (index commitIndex : Nat)
  | markNotAbove (index lastApplied : Nat)
  | markUncommitted (index commitIndex : Nat)
  | persistedGap (boundary first : Nat)
  deriving DecidableEq, Repr

/-- What the error prints. The persister's own error is the memory persister's. -/
def RaftError.text : RaftError → String
  | notLeader => "raft: not leader"
  | readBarrierUnavailable =>
    "raft: read barrier unavailable: could not confirm quorum for a linearizable read"
  | invalidSnapshotZero =>
    "raft: CreateSnapshot(0): raft: invalid snapshot index: there is nothing to snapshot before the log begins"
  | invalidSnapshotBehind index boundary =>
    s!"raft: CreateSnapshot({index}): raft: invalid snapshot index: " ++
      s!"must be greater than the current snapshot boundary {boundary}"
  | invalidSnapshotUnapplied index lastApplied =>
    s!"raft: CreateSnapshot({index}): raft: invalid snapshot index: exceeds lastApplied {lastApplied}"
  | invalidSnapshotUncommitted index commitIndex =>
    s!"raft: CreateSnapshot({index}): raft: invalid snapshot index: exceeds commitIndex {commitIndex}"
  | invalidSnapshotAbsent index =>
    s!"raft: CreateSnapshot({index}): raft: invalid snapshot index: index not present in this node's own log"
  | compactAbsent index =>
    s!"raft: compact log: raft: log: cannot compact at index {index}: not present in this log"
  | persistProposal => "raft: persist proposed entry: raft: simulated persistence failure"
  | persistSnapshot => "raft: persist snapshot: raft: simulated persistence failure"
  | persistCompacted => "raft: persist compacted log: raft: simulated persistence failure"
  | noPendingSnapshot index => s!"raft: ConfirmSnapshotRestored({index}): no matching pending snapshot"
  | confirmUncommitted index commitIndex =>
    s!"raft: ConfirmSnapshotRestored({index}): exceeds commitIndex {commitIndex}"
  | markNotAbove index lastApplied =>
    s!"raft: MarkApplied({index}): must be greater than current lastApplied {lastApplied}"
  | markUncommitted index commitIndex => s!"raft: MarkApplied({index}): exceeds commitIndex {commitIndex}"
  | persistedGap boundary first =>
    s!"raft: persisted log has a gap after snapshot boundary {boundary} (first retained entry is {first})" ++
      ": raft: corrupt persisted state"

end ForgeDB.Raft
