import Mathlib.Logic.Function.Basic
import ForgeDB.Raft.Message

/-!
One node of the cluster. Every method that runs under the node's lock is a function from
the node to the node, with the reply it gives and the remote calls it starts in the
background. Logging and metrics are left out.
-/

namespace ForgeDB.Raft

inductive Role where
  | follower
  | candidate
  | leader
  deriving DecidableEq, Repr, Inhabited

def defaultElectionTickMin : Int := 10
def defaultElectionTickMax : Int := 20
def defaultHeartbeatTick : Int := 2
def defaultSnapshotChunkSize : Int := 1048576
def maxSnapshotDataSize : Nat := 268435456

/-- `rand` is the stream of values the election timeouts draw from. -/
structure Options where
  id : String
  peers : List String
  electionTickMin : Int
  electionTickMax : Int
  heartbeatTick : Int
  rand : Nat → Nat
  persister : Persister
  snapshotChunkSize : Int

structure InProgressSnapshotTransfer where
  lastIncludedIndex : Nat
  lastIncludedTerm : Nat
  totalSize : Nat
  buf : List UInt8
  deriving DecidableEq, Repr

/-- The maps of replication progress read zero where nothing was stored. The two channels hold
at most one wake-up. -/
structure Node where
  id : String
  peers : List String
  currentTerm : Nat
  votedFor : String
  log : Log
  commitIndex : Nat
  lastApplied : Nat
  role : Role
  leaderID : String
  votesReceived : List String
  nextIndex : String → Nat
  matchIndex : String → Nat
  electionElapsed : Int
  electionTimeout : Int
  heartbeatElapsed : Int
  electionTickMin : Int
  electionTickMax : Int
  heartbeatTick : Int
  rnd : Nat → Nat
  persister : Persister
  commitCh : Bool
  appliedCh : Bool
  snapshotData : List UInt8
  pendingSnapshot : Option Snapshot
  snapshotChunkSize : Nat
  chunkTransfer : Option InProgressSnapshotTransfer
  deriving Inhabited

/-- A remote call in flight: what its goroutine still knows when the reply arrives. -/
inductive Call where
  | requestVote (peer : String) (args : RequestVoteArgs)
  | appendEntries (peer : String) (args : AppendEntriesArgs)
  | installSnapshot (peer : String) (snap : Snapshot) (args : InstallSnapshotArgs)
  deriving DecidableEq, Repr

def Call.peer : Call → String
  | requestVote peer _ => peer
  | appendEntries peer _ => peer
  | installSnapshot peer _ _ => peer

namespace Node

def majority (n : Node) : Nat :=
  let total := n.peers.length + 1
  total / 2 + 1

def resetElectionTimer (n : Node) : Node :=
  let spread := n.electionTickMax - n.electionTickMin
  if spread ≤ 0 then { n with electionElapsed := 0, electionTimeout := n.electionTickMin }
  else { n with
    electionElapsed := 0
    electionTimeout := n.electionTickMin + (n.rnd 0 % (spread.toNat + 1) : Nat)
    rnd := fun draw => n.rnd (draw + 1) }

def persist (n : Node) : Node × Bool :=
  let (persister, ok) := n.persister.saveState ⟨n.currentTerm, n.votedFor, n.log.rest⟩
  ({ n with persister := persister }, ok)

theorem persist_cases (n : Node) :
    (∃ later, n.persist = ({ n with persister := ⟨n.persister.state, n.persister.snapshot, later⟩ }, false)) ∨
      ∃ later, n.persist = ({ n with persister :=
        ⟨some ⟨n.currentTerm, n.votedFor, n.log.rest⟩, n.persister.snapshot, later⟩ }, true) := by
  rcases n.persister.saveState_cases ⟨n.currentTerm, n.votedFor, n.log.rest⟩ with ⟨later, same⟩ | ⟨later, same⟩
  · exact Or.inl ⟨later, by simp only [persist, same]⟩
  · exact Or.inr ⟨later, by simp only [persist, same]⟩

def becomeFollower (n : Node) (term : Nat) : Node × Bool :=
  let (saved, ok) := { n with currentTerm := term, votedFor := "" }.persist
  if ok then
    ({ saved with role := .follower, leaderID := "", votesReceived := [] }.resetElectionTimer, true)
  else ({ saved with currentTerm := n.currentTerm, votedFor := n.votedFor }, false)

def notifyCommit (n : Node) : Node := { n with commitCh := true }

def notifyApplied (n : Node) : Node := { n with appliedCh := true }

def replicas (n : Node) (index : Nat) : Nat :=
  1 + (n.peers.filter fun peer => index ≤ n.matchIndex peer).length

/-- The commit rule, tried at every index from the given one down to the commit index. -/
def maybeAdvanceCommitIndexFrom (n : Node) : Nat → Node
  | 0 => n
  | N + 1 =>
    if N + 1 ≤ n.commitIndex then n
    else if n.log.termAt (N + 1) ≠ some n.currentTerm then n.maybeAdvanceCommitIndexFrom N
    else if n.majority ≤ n.replicas (N + 1) then { n with commitIndex := N + 1 }.notifyCommit
    else n.maybeAdvanceCommitIndexFrom N

def maybeAdvanceCommitIndex (n : Node) : Node := n.maybeAdvanceCommitIndexFrom n.log.lastIndex

def appendEntriesArgs (n : Node) (peer : String) : AppendEntriesArgs :=
  let prevIndex := n.nextIndex peer - 1
  { term := n.currentTerm
    leaderID := n.id
    prevLogIndex := prevIndex
    prevLogTerm := (n.log.termAt prevIndex).getD 0
    entries := n.log.slice (prevIndex + 1)
    leaderCommit := n.commitIndex }

def sendInstallSnapshotArgs (n : Node) (term : Nat) (snap : Snapshot) (offset : Nat) : InstallSnapshotArgs :=
  let total := snap.data.length
  let stop := if total < offset + n.snapshotChunkSize then total else offset + n.snapshotChunkSize
  let chunk := (snap.data.drop offset).take (stop - offset)
  { term := term
    leaderID := n.id
    lastIncludedIndex := snap.lastIncludedIndex
    lastIncludedTerm := snap.lastIncludedTerm
    data := chunk
    chunked := true
    offset := offset
    final := stop == total
    totalSize := total
    checksum := checksum chunk }

def broadcastCall (n : Node) (peer : String) : Call :=
  let snapshotBoundary := n.log.sentinel.index
  if n.nextIndex peer ≤ snapshotBoundary then
    let snap : Snapshot := ⟨snapshotBoundary, n.log.sentinel.term, n.snapshotData⟩
    .installSnapshot peer snap (n.sendInstallSnapshotArgs n.currentTerm snap 0)
  else .appendEntries peer (n.appendEntriesArgs peer)

def broadcastAppendEntries (n : Node) : Node × List Call :=
  (n.maybeAdvanceCommitIndex, n.peers.map n.broadcastCall)

def becomeLeader (n : Node) : Node × List Call :=
  let lastIndex := n.log.lastIndex
  { n with
    role := .leader
    leaderID := n.id
    votesReceived := []
    nextIndex := fun peer => if peer ∈ n.peers then lastIndex + 1 else 0
    matchIndex := fun _ => 0
    heartbeatElapsed := 0 }.broadcastAppendEntries

def startElection (n : Node) : Node × List Call :=
  let (saved, ok) := { n with currentTerm := n.currentTerm + 1, votedFor := n.id }.persist
  if ok then
    let n := { saved with role := .candidate, votesReceived := [saved.id] }.resetElectionTimer
    if n.majority ≤ n.votesReceived.length then n.becomeLeader
    else (n, n.peers.map fun peer =>
      .requestVote peer ⟨n.currentTerm, n.id, n.log.lastIndex, n.log.lastTerm⟩)
  else ({ saved with currentTerm := n.currentTerm, votedFor := n.votedFor }, [])

def tick (n : Node) : Node × List Call :=
  match n.role with
  | .leader =>
    let n := { n with heartbeatElapsed := n.heartbeatElapsed + 1 }
    if n.heartbeatTick ≤ n.heartbeatElapsed then { n with heartbeatElapsed := 0 }.broadcastAppendEntries
    else (n, [])
  | _ =>
    let n := { n with electionElapsed := n.electionElapsed + 1 }
    if n.electionTimeout ≤ n.electionElapsed then n.startElection else (n, [])

/-- The part of `sendRequestVote` after the reply, for the term captured when it was sent. -/
def sendRequestVoteReply (n : Node) (peer : String) (term : Nat) (reply : RequestVoteReply) : Node × List Call :=
  if n.currentTerm < reply.term then ((n.becomeFollower reply.term).1, [])
  else if n.role ≠ .candidate ∨ n.currentTerm ≠ term then (n, [])
  else if !reply.voteGranted then (n, [])
  else
    let n := { n with votesReceived := n.votesReceived.insert peer }
    if n.majority ≤ n.votesReceived.length then n.becomeLeader else (n, [])

/-- The term discipline all three handlers share: step up to a newer term, refuse an older one. -/
def observeTerm (n : Node) (term : Nat) : Node × Bool :=
  let (n, ok) := if n.currentTerm < term then n.becomeFollower term else (n, true)
  (n, ok && !decide (term < n.currentTerm))

def handleRequestVote (n : Node) (args : RequestVoteArgs) : Node × RequestVoteReply :=
  let (n, current) := n.observeTerm args.term
  if !current then (n, ⟨n.currentTerm, false⟩)
  else
    let canVote := n.votedFor == "" || n.votedFor == args.candidateID
    let upToDate := logIsUpToDate args.lastLogIndex args.lastLogTerm n.log.lastIndex n.log.lastTerm
    if !canVote || !upToDate then (n, ⟨n.currentTerm, false⟩)
    else
      let (saved, ok) := { n with votedFor := args.candidateID }.persist
      if ok then (saved.resetElectionTimer, ⟨saved.currentTerm, true⟩)
      else ({ saved with votedFor := n.votedFor }, ⟨n.currentTerm, false⟩)

/-- A peer has acknowledged `position`: what a leader notes after either kind of replication call. -/
def noteProgress (n : Node) (peer : String) (position : Nat) : Node :=
  let n := if n.matchIndex peer < position then
      { n with matchIndex := Function.update n.matchIndex peer position } else n
  if n.nextIndex peer < position + 1 then
    { n with nextIndex := Function.update n.nextIndex peer (position + 1) } else n

/-- The part of `sendAppendEntries` after the reply, with whether the peer acknowledged the
leadership at the captured term. -/
def sendAppendEntriesReply (n : Node) (peer : String) (args : AppendEntriesArgs) (reply : AppendEntriesReply) :
    Node × Bool :=
  if n.currentTerm < reply.term then ((n.becomeFollower reply.term).1, false)
  else if n.role ≠ .leader ∨ n.currentTerm ≠ args.term then (n, false)
  else if reply.success then
    let newMatch := args.prevLogIndex + args.entries.length
    ((n.noteProgress peer newMatch).maybeAdvanceCommitIndex, true)
  else if 1 < n.nextIndex peer then
    ({ n with nextIndex := Function.update n.nextIndex peer (n.nextIndex peer - 1) }, true)
  else (n, true)

/-- The part of `sendInstallSnapshot`'s loop after the reply to the chunk `args`. -/
def sendInstallSnapshotReply (n : Node) (peer : String) (snap : Snapshot) (args : InstallSnapshotArgs)
    (reply : InstallSnapshotReply) : Node × List Call :=
  if n.currentTerm < reply.term then ((n.becomeFollower reply.term).1, [])
  else if n.role ≠ .leader ∨ n.currentTerm ≠ args.term then (n, [])
  else if !reply.success then (n, [])
  else if args.final then ((n.noteProgress peer snap.lastIncludedIndex).maybeAdvanceCommitIndex, [])
  else
    let next := n.sendInstallSnapshotArgs args.term snap (args.offset + args.data.length)
    (n, [.installSnapshot peer snap next])

def follow (n : Node) (leaderID : String) : Node :=
  { n with role := .follower, leaderID := leaderID }.resetElectionTimer

def handleAppendEntries (n : Node) (args : AppendEntriesArgs) : Node × AppendEntriesReply :=
  let (n, current) := n.observeTerm args.term
  if !current then (n, ⟨n.currentTerm, false⟩)
  else
    let n := n.follow args.leaderID
    if n.log.termAt args.prevLogIndex ≠ some args.prevLogTerm then (n, ⟨n.currentTerm, false⟩)
    else
      let (log, changed) := n.log.appendAfter args.prevLogIndex args.entries
      let (saved, ok) := if changed then { n with log := log }.persist else (n, true)
      if !ok then ({ saved with log := n.log }, ⟨n.currentTerm, false⟩)
      else
        let n := saved
        let lastNew := args.prevLogIndex + args.entries.length
        let newCommit := if lastNew < args.leaderCommit then lastNew else args.leaderCommit
        let n := if n.commitIndex < args.leaderCommit ∧ n.commitIndex < newCommit then
            { n with commitIndex := newCommit }.notifyCommit else n
        (n, ⟨n.currentTerm, true⟩)

def propose (n : Node) (command : Command) : Node × Except RaftError (Nat × Nat) × List Call :=
  if n.role ≠ .leader then (n, .error .notLeader, [])
  else
    let (log, index) := n.log.append ⟨0, n.currentTerm, command⟩
    let (saved, ok) := { n with log := log }.persist
    if ok then
      let (n, calls) := saved.broadcastAppendEntries
      (n, .ok (index, n.currentTerm), calls)
    else ({ saved with log := n.log }, .error .persistProposal, [])

def committedEntries (n : Node) (first : Nat) : List LogEntry :=
  let first := if first = 0 then 1 else first
  if n.commitIndex < first then [] else n.log.range first n.commitIndex

def markApplied (n : Node) (index : Nat) : Node × Except RaftError Unit :=
  if index ≤ n.lastApplied then (n, .error (.markNotAbove index n.lastApplied))
  else if n.commitIndex < index then (n, .error (.markUncommitted index n.commitIndex))
  else ({ n with lastApplied := index }.notifyApplied, .ok ())

end Node

end ForgeDB.Raft
