import ForgeDB.Raft.Node
import ForgeDB.Raft.Words.RawLog

/-!
The node as the machine runs it: terms, indexes, offsets and sizes are words of 64 bits that wrap around, the
log is a slice, maps may be nil, and every access that the source makes is checked. Logging and metrics are left
out.
-/

namespace ForgeDB.Raft.Words.Machine

structure RequestVoteArgs where
  term : UInt64
  candidateID : String
  lastLogIndex : UInt64
  lastLogTerm : UInt64
  deriving DecidableEq, Repr

structure RequestVoteReply where
  term : UInt64
  voteGranted : Bool
  deriving DecidableEq, Repr

structure AppendEntriesArgs where
  term : UInt64
  leaderID : String
  prevLogIndex : UInt64
  prevLogTerm : UInt64
  entries : Slice LogEntry
  leaderCommit : UInt64
  deriving DecidableEq, Repr

structure AppendEntriesReply where
  term : UInt64
  success : Bool
  deriving DecidableEq, Repr

structure InstallSnapshotArgs where
  term : UInt64
  leaderID : String
  lastIncludedIndex : UInt64
  lastIncludedTerm : UInt64
  data : Slice UInt8
  chunked : Bool
  offset : UInt64
  final : Bool
  totalSize : UInt64
  checksum : UInt32
  deriving DecidableEq, Repr

structure InstallSnapshotReply where
  term : UInt64
  success : Bool
  deriving DecidableEq, Repr

structure PersistentState where
  currentTerm : UInt64
  votedFor : String
  log : Slice LogEntry
  deriving DecidableEq, Repr

structure Snapshot where
  lastIncludedIndex : UInt64
  lastIncludedTerm : UInt64
  data : Slice UInt8
  deriving DecidableEq, Repr

structure Persister where
  state : Option PersistentState
  snapshot : Option Snapshot
  faults : List Bool
  deriving DecidableEq, Repr

namespace Persister

def saveState (p : Persister) (state : PersistentState) : Persister × Bool :=
  match p.faults with
  | true :: later => ({ p with faults := later }, false)
  | later => ({ p with state := some state, faults := later.tail }, true)

def saveSnapshot (p : Persister) (snap : Snapshot) : Persister × Bool :=
  match p.faults with
  | true :: later => ({ p with faults := later }, false)
  | later => ({ p with snapshot := some snap, faults := later.tail }, true)

end Persister

def logIsUpToDate (candidateLastIndex candidateLastTerm voterLastIndex voterLastTerm : UInt64) : Bool :=
  if candidateLastTerm ≠ voterLastTerm then voterLastTerm < candidateLastTerm
  else voterLastIndex ≤ candidateLastIndex

def defaultElectionTickMin : Int64 := 10
def defaultElectionTickMax : Int64 := 20
def defaultHeartbeatTick : Int64 := 2
def defaultSnapshotChunkSize : Int64 := 1048576

structure Options where
  id : String
  peers : List String
  electionTickMin : Int64
  electionTickMax : Int64
  heartbeatTick : Int64
  rand : Nat → Nat
  persister : Persister
  snapshotChunkSize : Int64

structure InProgressSnapshotTransfer where
  lastIncludedIndex : UInt64
  lastIncludedTerm : UInt64
  totalSize : UInt64
  buf : Slice UInt8
  deriving DecidableEq, Repr

structure Node where
  id : String
  peers : List String
  currentTerm : UInt64
  votedFor : String
  log : RawLog
  commitIndex : UInt64
  lastApplied : UInt64
  role : Role
  leaderID : String
  votesReceived : NilMap String Bool
  nextIndex : NilMap String UInt64
  matchIndex : NilMap String UInt64
  electionElapsed : Int64
  electionTimeout : Int64
  heartbeatElapsed : Int64
  electionTickMin : Int64
  electionTickMax : Int64
  heartbeatTick : Int64
  rnd : Nat → Nat
  persister : Persister
  commitCh : Bool
  appliedCh : Bool
  snapshotData : Slice UInt8
  pendingSnapshot : Option Snapshot
  snapshotChunkSize : Int64
  chunkTransfer : Option InProgressSnapshotTransfer

/-- A remote call in flight: what its goroutine still knows when the reply arrives. A chunk of a snapshot ends
at `stop`. -/
inductive Call where
  | requestVote (peer : String) (args : RequestVoteArgs)
  | appendEntries (peer : String) (args : AppendEntriesArgs)
  | installSnapshot (peer : String) (snap : Snapshot) (args : InstallSnapshotArgs) (stop : UInt64)
  deriving DecidableEq, Repr

namespace Node

def majority (n : Node) : Nat :=
  let total := n.peers.length + 1
  total / 2 + 1

def resetElectionTimer (n : Node) : Checked Node :=
  let spread := n.electionTickMax - n.electionTickMin
  if spread ≤ 0 then return { n with electionElapsed := 0, electionTimeout := n.electionTickMin }
  else do
    let draw ← intn (n.rnd 0) (spread + 1)
    return { n with
      electionElapsed := 0
      electionTimeout := n.electionTickMin + draw
      rnd := fun i => n.rnd (i + 1) }

def persist (n : Node) : Checked (Node × Bool) := do
  let logCopy ← n.log.entries.startingAt 1
  let (persister, ok) := n.persister.saveState ⟨n.currentTerm, n.votedFor, logCopy⟩
  return ({ n with persister := persister }, ok)

def becomeFollower (n : Node) (term : UInt64) : Checked (Node × Bool) := do
  let (saved, ok) ← { n with currentTerm := term, votedFor := "" }.persist
  if ok then
    let n ← { saved with role := .follower, leaderID := "", votesReceived := none }.resetElectionTimer
    return (n, true)
  else return ({ saved with currentTerm := n.currentTerm, votedFor := n.votedFor }, false)

def notifyCommit (n : Node) : Node := { n with commitCh := true }

def notifyApplied (n : Node) : Node := { n with appliedCh := true }

def replicas (n : Node) (index : UInt64) : Nat :=
  1 + (n.peers.filter fun peer => index ≤ n.matchIndex.get 0 peer).length

def maybeAdvanceCommitIndexFrom (n : Node) : Nat → Checked Node
  | 0 => return n
  | N + 1 =>
    if UInt64.ofNat (N + 1) ≤ n.commitIndex then return n
    else do
      let term ← n.log.termAt (UInt64.ofNat (N + 1))
      if term ≠ some n.currentTerm then n.maybeAdvanceCommitIndexFrom N
      else if n.majority ≤ n.replicas (UInt64.ofNat (N + 1)) then
        return { n with commitIndex := UInt64.ofNat (N + 1) }.notifyCommit
      else n.maybeAdvanceCommitIndexFrom N

def maybeAdvanceCommitIndex (n : Node) : Checked Node := do
  let lastIndex ← n.log.lastIndex
  n.maybeAdvanceCommitIndexFrom lastIndex.toNat

def appendEntriesArgs (n : Node) (peer : String) : Checked AppendEntriesArgs := do
  let prevIndex := n.nextIndex.get 0 peer - 1
  let prevTerm ← n.log.termAt prevIndex
  let entries ← n.log.slice (prevIndex + 1)
  return {
    term := n.currentTerm
    leaderID := n.id
    prevLogIndex := prevIndex
    prevLogTerm := prevTerm.getD 0
    entries := entries
    leaderCommit := n.commitIndex }

def sendInstallSnapshotArgs (n : Node) (term : UInt64) (snap : Snapshot) (offset : UInt64) :
    Checked (InstallSnapshotArgs × UInt64) := do
  let total := snap.data.len
  let stop := offset + n.snapshotChunkSize.toUInt64
  let stop := if total < stop then total else stop
  let chunk ← snap.data.window offset.toNat stop.toNat
  return ({
    term := term
    leaderID := n.id
    lastIncludedIndex := snap.lastIncludedIndex
    lastIncludedTerm := snap.lastIncludedTerm
    data := chunk
    chunked := true
    offset := offset
    final := stop == total
    totalSize := total
    checksum := checksum chunk.items }, stop)

def broadcastCall (n : Node) (peer : String) : Checked Call := do
  let first ← n.log.entries.get 0
  let snapshotBoundary := first.index
  if n.nextIndex.get 0 peer ≤ snapshotBoundary then
    let snap : Snapshot := ⟨snapshotBoundary, first.term, n.snapshotData⟩
    let (args, stop) ← n.sendInstallSnapshotArgs n.currentTerm snap 0
    return .installSnapshot peer snap args stop
  else
    let args ← n.appendEntriesArgs peer
    return .appendEntries peer args

def broadcastAppendEntries (n : Node) : Checked (Node × List Call) := do
  let calls ← n.peers.mapM n.broadcastCall
  let n ← n.maybeAdvanceCommitIndex
  return (n, calls)

def becomeLeader (n : Node) : Checked (Node × List Call) := do
  let lastIndex ← n.log.lastIndex
  let nextIndex ← n.peers.foldlM (fun m peer => m.set peer (lastIndex + 1)) NilMap.made
  let matchIndex ← n.peers.foldlM (fun m peer => m.set peer 0) NilMap.made
  { n with
    role := .leader
    leaderID := n.id
    votesReceived := none
    nextIndex := nextIndex
    matchIndex := matchIndex
    heartbeatElapsed := 0 }.broadcastAppendEntries

def startElection (n : Node) : Checked (Node × List Call) := do
  let (saved, ok) ← { n with currentTerm := n.currentTerm + 1, votedFor := n.id }.persist
  if ok then
    let n ← { saved with role := .candidate, votesReceived := some [(saved.id, true)] }.resetElectionTimer
    let lastIndex ← n.log.lastIndex
    let lastTerm ← n.log.lastTerm
    if n.majority ≤ n.votesReceived.size then n.becomeLeader
    else return (n, n.peers.map fun peer => .requestVote peer ⟨n.currentTerm, n.id, lastIndex, lastTerm⟩)
  else return ({ saved with currentTerm := n.currentTerm, votedFor := n.votedFor }, [])

def tick (n : Node) : Checked (Node × List Call) :=
  match n.role with
  | .leader =>
    let n := { n with heartbeatElapsed := n.heartbeatElapsed + 1 }
    if n.heartbeatTick ≤ n.heartbeatElapsed then { n with heartbeatElapsed := 0 }.broadcastAppendEntries
    else return (n, [])
  | _ =>
    let n := { n with electionElapsed := n.electionElapsed + 1 }
    if n.electionTimeout ≤ n.electionElapsed then n.startElection else return (n, [])

def sendRequestVoteReply (n : Node) (peer : String) (term : UInt64) (reply : RequestVoteReply) :
    Checked (Node × List Call) :=
  if n.currentTerm < reply.term then do
    let (n, _) ← n.becomeFollower reply.term
    return (n, [])
  else if n.role ≠ .candidate ∨ n.currentTerm ≠ term then return (n, [])
  else if !reply.voteGranted then return (n, [])
  else do
    let votesReceived ← n.votesReceived.set peer true
    let n := { n with votesReceived := votesReceived }
    if n.majority ≤ n.votesReceived.size then n.becomeLeader else return (n, [])

def observeTerm (n : Node) (term : UInt64) : Checked (Node × Bool) :=
  if n.currentTerm < term then do
    let (n, ok) ← n.becomeFollower term
    return (n, ok && !decide (term < n.currentTerm))
  else return (n, !decide (term < n.currentTerm))

def handleRequestVote (n : Node) (args : RequestVoteArgs) : Checked (Node × RequestVoteReply) := do
  let (n, current) ← n.observeTerm args.term
  if !current then return (n, ⟨n.currentTerm, false⟩)
  else
    let canVote := n.votedFor == "" || n.votedFor == args.candidateID
    let lastIndex ← n.log.lastIndex
    let lastTerm ← n.log.lastTerm
    let upToDate := logIsUpToDate args.lastLogIndex args.lastLogTerm lastIndex lastTerm
    if !canVote || !upToDate then return (n, ⟨n.currentTerm, false⟩)
    else
      let (saved, ok) ← { n with votedFor := args.candidateID }.persist
      if ok then
        let n ← saved.resetElectionTimer
        return (n, ⟨n.currentTerm, true⟩)
      else return ({ saved with votedFor := n.votedFor }, ⟨n.currentTerm, false⟩)

def raise (m : NilMap String UInt64) (peer : String) (position : UInt64) : Checked (NilMap String UInt64) :=
  if m.get 0 peer < position then m.set peer position else return m

def noteProgress (n : Node) (peer : String) (position : UInt64) : Checked Node := do
  let matchIndex ← raise n.matchIndex peer position
  let nextIndex ← raise n.nextIndex peer (position + 1)
  { n with matchIndex := matchIndex, nextIndex := nextIndex }.maybeAdvanceCommitIndex

def sendAppendEntriesReply (n : Node) (peer : String) (args : AppendEntriesArgs) (reply : AppendEntriesReply) :
    Checked (Node × Bool) :=
  if n.currentTerm < reply.term then do
    let (n, _) ← n.becomeFollower reply.term
    return (n, false)
  else if n.role ≠ .leader ∨ n.currentTerm ≠ args.term then return (n, false)
  else if reply.success then do
    let newMatch := args.prevLogIndex + args.entries.len
    let n ← n.noteProgress peer newMatch
    return (n, true)
  else if 1 < n.nextIndex.get 0 peer then do
    let nextIndex ← n.nextIndex.set peer (n.nextIndex.get 0 peer - 1)
    return ({ n with nextIndex := nextIndex }, true)
  else return (n, true)

def sendInstallSnapshotReply (n : Node) (peer : String) (snap : Snapshot) (args : InstallSnapshotArgs) (stop : UInt64)
    (reply : InstallSnapshotReply) : Checked (Node × List Call) :=
  if n.currentTerm < reply.term then do
    let (n, _) ← n.becomeFollower reply.term
    return (n, [])
  else if n.role ≠ .leader ∨ n.currentTerm ≠ args.term then return (n, [])
  else if !reply.success then return (n, [])
  else if args.final then do
    let n ← n.noteProgress peer snap.lastIncludedIndex
    return (n, [])
  else do
    let (args, stop) ← n.sendInstallSnapshotArgs args.term snap stop
    return (n, [.installSnapshot peer snap args stop])

def follow (n : Node) (leaderID : String) : Checked Node :=
  { n with role := .follower, leaderID := leaderID }.resetElectionTimer

def persistIf (n : Node) (changed : Bool) : Checked (Node × Bool) :=
  if changed then n.persist else return (n, true)

/-- The commit index that a replication call tells, as far as the call reaches. -/
def commitUpTo (n : Node) (args : AppendEntriesArgs) : Node :=
  let lastNew := args.prevLogIndex + args.entries.len
  let newCommit := if lastNew < args.leaderCommit then lastNew else args.leaderCommit
  if n.commitIndex < args.leaderCommit ∧ n.commitIndex < newCommit then
    { n with commitIndex := newCommit }.notifyCommit else n

def handleAppendEntries (n : Node) (args : AppendEntriesArgs) : Checked (Node × AppendEntriesReply) := do
  let (n, current) ← n.observeTerm args.term
  if !current then return (n, ⟨n.currentTerm, false⟩)
  else
    let n ← n.follow args.leaderID
    let termAtPrev ← n.log.termAt args.prevLogIndex
    if termAtPrev ≠ some args.prevLogTerm then return (n, ⟨n.currentTerm, false⟩)
    else
      let (log, changed) ← n.log.appendAfter args.prevLogIndex args.entries
      let (saved, ok) ← { n with log := log }.persistIf changed
      if !ok then return ({ saved with log := n.log }, ⟨n.currentTerm, false⟩)
      else return (saved.commitUpTo args, ⟨saved.currentTerm, true⟩)

def propose (n : Node) (command : Bytes) : Checked (Node × Except RaftError (UInt64 × UInt64) × List Call) :=
  if n.role ≠ .leader then return (n, .error .notLeader, [])
  else do
    let oldLen := n.log.entries.items.length
    let (log, index) ← n.log.append ⟨0, n.currentTerm, command⟩
    let (saved, ok) ← { n with log := log }.persist
    if ok then
      let (n, calls) ← saved.broadcastAppendEntries
      return (n, .ok (index, saved.currentTerm), calls)
    else
      let entries ← saved.log.entries.upTo oldLen
      return ({ saved with log := ⟨entries⟩ }, .error .persistProposal, [])

def committedEntries (n : Node) (start : UInt64) : Checked (Slice LogEntry) :=
  let start := if start = 0 then 1 else start
  if n.commitIndex < start then return .empty else n.log.range start n.commitIndex

def markApplied (n : Node) (index : UInt64) : Node × Except RaftError Unit :=
  if index ≤ n.lastApplied then (n, .error (.markNotAbove index.toNat n.lastApplied.toNat))
  else if n.commitIndex < index then (n, .error (.markUncommitted index.toNat n.commitIndex.toNat))
  else ({ n with lastApplied := index }.notifyApplied, .ok ())

def createSnapshot (n : Node) (index : UInt64) (data : Slice UInt8) : Checked (Node × Except RaftError Unit) :=
  if index = 0 then return (n, .error .invalidSnapshotZero)
  else do
    let first ← n.log.entries.get 0
    if index ≤ first.index then return (n, .error (.invalidSnapshotBehind index.toNat first.index.toNat))
    else if n.lastApplied < index then return (n, .error (.invalidSnapshotUnapplied index.toNat n.lastApplied.toNat))
    else if n.commitIndex < index then return (n, .error (.invalidSnapshotUncommitted index.toNat n.commitIndex.toNat))
    else
      match ← n.log.termAt index with
      | none => return (n, .error (.invalidSnapshotAbsent index.toNat))
      | some term =>
        let (persister, ok) := n.persister.saveSnapshot ⟨index, term, data⟩
        let n := { n with persister := persister }
        if !ok then return (n, .error .persistSnapshot)
        else
          match ← n.log.compact index with
          | none => return (n, .error (.compactAbsent index.toNat))
          | some log =>
            let (saved, ok) ← { n with log := log }.persist
            if ok then return ({ saved with snapshotData := data }, .ok ())
            else return ({ saved with log := n.log }, .error .persistCompacted)

def confirmSnapshotRestored (n : Node) (lastIncludedIndex : UInt64) : Node × Except RaftError Unit :=
  if n.pendingSnapshot.map Snapshot.lastIncludedIndex ≠ some lastIncludedIndex then
    (n, .error (.noPendingSnapshot lastIncludedIndex.toNat))
  else if n.commitIndex < lastIncludedIndex then
    (n, .error (.confirmUncommitted lastIncludedIndex.toNat n.commitIndex.toNat))
  else
    let n := if n.lastApplied < lastIncludedIndex then
        { n with lastApplied := lastIncludedIndex }.notifyApplied else n
    ({ n with pendingSnapshot := none }, .ok ())

inductive ChunkOutcome where
  | rejected
  | incomplete
  | complete (data : Slice UInt8)
  deriving DecidableEq, Repr

def chunkTarget (n : Node) (args : InstallSnapshotArgs) : Option InProgressSnapshotTransfer :=
  if args.offset = 0 then some ⟨args.lastIncludedIndex, args.lastIncludedTerm, args.totalSize, .empty⟩
  else
    match n.chunkTransfer with
    | none => none
    | some cur =>
      if cur.lastIncludedIndex ≠ args.lastIncludedIndex ∨ cur.lastIncludedTerm ≠ args.lastIncludedTerm ∨
          cur.totalSize ≠ args.totalSize ∨ cur.buf.len ≠ args.offset then none
      else some cur

def receiveSnapshotChunk (n : Node) (args : InstallSnapshotArgs) : Checked (Node × ChunkOutcome) :=
  if UInt64.ofNat Raft.maxSnapshotDataSize < args.totalSize then return (n, .rejected)
  else
    match n.chunkTarget args with
    | none => return ({ n with chunkTransfer := none }, .rejected)
    | some transfer =>
      if checksum args.data.items ≠ args.checksum then return ({ n with chunkTransfer := none }, .rejected)
      else
        let newLen := transfer.buf.len + args.data.len
        if transfer.totalSize < newLen then return ({ n with chunkTransfer := none }, .rejected)
        else do
          let buf ← transfer.buf.append args.data
          let n := { n with chunkTransfer := some { transfer with buf := buf } }
          if !args.final then return (n, .incomplete)
          else if buf.len ≠ transfer.totalSize then return ({ n with chunkTransfer := none }, .rejected)
          else return (n, .complete buf)

def installSnapshot (n : Node) (snap : Snapshot) : Checked (Node × InstallSnapshotReply) := do
  let (persister, ok) := n.persister.saveSnapshot snap
  let n := { n with persister := persister }
  if !ok then return ({ n with chunkTransfer := none }, ⟨n.currentTerm, false⟩)
  else
    let log ← n.log.installSnapshotBoundary snap.lastIncludedIndex snap.lastIncludedTerm
    let (saved, ok) ← { n with log := log }.persist
    if !ok then return ({ saved with log := n.log, chunkTransfer := none }, ⟨n.currentTerm, false⟩)
    else
      let n := { saved with snapshotData := snap.data, pendingSnapshot := some snap, chunkTransfer := none }
      let n := if n.commitIndex < snap.lastIncludedIndex then
          { n with commitIndex := snap.lastIncludedIndex }.notifyCommit else n
      return (n, ⟨n.currentTerm, true⟩)

def handleInstallSnapshot (n : Node) (args : InstallSnapshotArgs) : Checked (Node × InstallSnapshotReply) := do
  let (n, current) ← n.observeTerm args.term
  if !current then return (n, ⟨n.currentTerm, false⟩)
  else
    let n ← n.follow args.leaderID
    let first ← n.log.entries.get 0
    if args.lastIncludedIndex ≤ first.index then
      let superseded := n.chunkTransfer.any fun transfer => transfer.lastIncludedIndex ≤ args.lastIncludedIndex
      return (if superseded then { n with chunkTransfer := none } else n, ⟨n.currentTerm, true⟩)
    else if args.chunked then
      match ← n.receiveSnapshotChunk args with
      | (n, .rejected) => return (n, ⟨n.currentTerm, false⟩)
      | (n, .incomplete) => return (n, ⟨n.currentTerm, true⟩)
      | (n, .complete data) => n.installSnapshot ⟨args.lastIncludedIndex, args.lastIncludedTerm, data⟩
    else
      let n := { n with chunkTransfer := none }
      n.installSnapshot ⟨args.lastIncludedIndex, args.lastIncludedTerm, args.data⟩

structure ReadRound where
  term : UInt64
  index : UInt64
  majority : Nat
  calls : List Call
  deriving DecidableEq, Repr

def readIndexCall (n : Node) (snapshotBoundary : UInt64) (peer : String) : Checked (Option Call) :=
  if n.nextIndex.get 0 peer ≤ snapshotBoundary then return none
  else do
    let args ← n.appendEntriesArgs peer
    return some (.appendEntries peer args)

def readIndexStart (n : Node) : Checked (Except RaftError ReadRound) :=
  if n.role ≠ .leader then return .error .notLeader
  else do
    let first ← n.log.entries.get 0
    let calls ← n.peers.mapM (n.readIndexCall first.index)
    return .ok ⟨n.currentTerm, n.commitIndex, n.majority, calls.filterMap fun call => call⟩

def readIndexFinish (n : Node) (round : ReadRound) (acks : Nat) : Except RaftError UInt64 :=
  if round.majority ≤ 1 then .ok round.index
  else
    let stillCurrent := n.role = .leader ∧ n.currentTerm = round.term
    if ¬stillCurrent ∨ 1 + acks < round.majority then .error .readBarrierUnavailable
    else .ok round.index

end Node

def loadedSuffix (snap : Option Snapshot) (logEntries : Slice LogEntry) : Except RaftError (Slice LogEntry) :=
  match snap with
  | none => .ok logEntries
  | some snap =>
    let suffix : Slice LogEntry := ⟨logEntries.items.filter fun e => snap.lastIncludedIndex < e.index,
      Nat.lt_of_le_of_lt (List.length_filter_le _ _) logEntries.fits⟩
    match suffix.items with
    | [] => .ok suffix
    | first :: _ =>
      if first.index ≠ snap.lastIncludedIndex + 1 then
        .error (.persistedGap snap.lastIncludedIndex.toNat first.index.toNat)
      else .ok suffix

def newLogFromEntries (baseIndex baseTerm : UInt64) (entries : Slice LogEntry) : Checked RawLog := do
  let entries ← (Slice.single ⟨baseIndex, baseTerm, []⟩).append entries
  return ⟨entries⟩

def startNode (opts : Options) (log : RawLog) : Node :=
  let state := opts.persister.state
  let snap := opts.persister.snapshot
  { id := opts.id
    peers := opts.peers
    currentTerm := state.elim 0 PersistentState.currentTerm
    votedFor := state.elim "" PersistentState.votedFor
    log := log
    commitIndex := 0
    lastApplied := 0
    role := .follower
    leaderID := ""
    votesReceived := none
    nextIndex := none
    matchIndex := none
    electionElapsed := 0
    electionTimeout := 0
    heartbeatElapsed := 0
    electionTickMin := if opts.electionTickMin = 0 then defaultElectionTickMin else opts.electionTickMin
    electionTickMax := if opts.electionTickMax = 0 then defaultElectionTickMax else opts.electionTickMax
    heartbeatTick := if opts.heartbeatTick = 0 then defaultHeartbeatTick else opts.heartbeatTick
    rnd := opts.rand
    persister := opts.persister
    commitCh := false
    appliedCh := false
    snapshotData := snap.elim .empty Snapshot.data
    pendingSnapshot := snap
    snapshotChunkSize := if opts.snapshotChunkSize ≤ 0 then defaultSnapshotChunkSize else opts.snapshotChunkSize
    chunkTransfer := none }

def newNode (opts : Options) : Checked (Except RaftError Node) := do
  let state := opts.persister.state
  let snap := opts.persister.snapshot
  match loadedSuffix snap (state.elim .empty PersistentState.log) with
  | .error error => return .error error
  | .ok logEntries =>
    let log ← newLogFromEntries (snap.elim 0 Snapshot.lastIncludedIndex) (snap.elim 0 Snapshot.lastIncludedTerm)
      logEntries
    let n ← (startNode opts log).resetElectionTimer
    return .ok n

structure System where
  node : Node
  calls : List Call

/-- What the network, the clock and the client may do to a node. A reply answers one of the calls in flight. -/
inductive Operation where
  | handleRequestVote (args : RequestVoteArgs)
  | handleAppendEntries (args : AppendEntriesArgs)
  | handleInstallSnapshot (args : InstallSnapshotArgs)
  | tick
  | propose (command : Bytes)
  | reply (call : Nat) (term : UInt64) (granted : Bool)
  | createSnapshot (index : UInt64) (data : Slice UInt8)
  | markApplied (index : UInt64)
  | confirmSnapshotRestored (lastIncludedIndex : UInt64)
  | committedEntries (start : UInt64)
  | readIndex

def Operation.offered : Operation → Nat
  | handleAppendEntries args => args.entries.items.length
  | propose _ => 1
  | _ => 0

namespace System

def answer (n : Node) (term : UInt64) (granted : Bool) : Call → Checked (Node × List Call)
  | .requestVote peer args => n.sendRequestVoteReply peer args.term ⟨term, granted⟩
  | .appendEntries peer args => do
    let (n, _) ← n.sendAppendEntriesReply peer args ⟨term, granted⟩
    return (n, [])
  | .installSnapshot peer snap args stop => n.sendInstallSnapshotReply peer snap args stop ⟨term, granted⟩

def step (s : System) : Operation → Checked System
  | .handleRequestVote args => do
    let (n, _) ← s.node.handleRequestVote args
    return { s with node := n }
  | .handleAppendEntries args => do
    let (n, _) ← s.node.handleAppendEntries args
    return { s with node := n }
  | .handleInstallSnapshot args => do
    let (n, _) ← s.node.handleInstallSnapshot args
    return { s with node := n }
  | .tick => do
    let (n, calls) ← s.node.tick
    return ⟨n, s.calls ++ calls⟩
  | .propose command => do
    let (n, _, calls) ← s.node.propose command
    return ⟨n, s.calls ++ calls⟩
  | .reply call term granted =>
    match s.calls[call]? with
    | none => return s
    | some pending => do
      let (n, calls) ← answer s.node term granted pending
      return ⟨n, s.calls.eraseIdx call ++ calls⟩
  | .createSnapshot index data => do
    let (n, _) ← s.node.createSnapshot index data
    return { s with node := n }
  | .markApplied index => return { s with node := (s.node.markApplied index).1 }
  | .confirmSnapshotRestored lastIncludedIndex =>
    return { s with node := (s.node.confirmSnapshotRestored lastIncludedIndex).1 }
  | .committedEntries start => do
    let _ ← s.node.committedEntries start
    return s
  | .readIndex => do
    match ← s.node.readIndexStart with
    | .error _ => return s
    | .ok round => return { s with calls := s.calls ++ round.calls }

def run (s : System) : List Operation → Checked System
  | [] => return s
  | op :: more => do
    let s ← s.step op
    s.run more

end System

end ForgeDB.Raft.Words.Machine
