import ForgeDB.Raft.Node

/-!
Snapshots, read barriers and restarts: creating a snapshot of applied state, receiving a
leader's snapshot whole or in chunks, the quorum round behind a consistent read, and the
construction of a node from what its persister kept.
-/

namespace ForgeDB.Raft

namespace Node

/-- The snapshot is saved before the log is compacted; a failed second save rolls the log back
and leaves the saved snapshot in place. -/
def createSnapshot (n : Node) (index : Nat) (data : List UInt8) : Node × Except RaftError Unit :=
  if index = 0 then (n, .error .invalidSnapshotZero)
  else if index ≤ n.log.sentinel.index then (n, .error (.invalidSnapshotBehind index n.log.sentinel.index))
  else if n.lastApplied < index then (n, .error (.invalidSnapshotUnapplied index n.lastApplied))
  else if n.commitIndex < index then (n, .error (.invalidSnapshotUncommitted index n.commitIndex))
  else
    match n.log.termAt index with
    | none => (n, .error (.invalidSnapshotAbsent index))
    | some term =>
      let (persister, ok) := n.persister.saveSnapshot ⟨index, term, data⟩
      let n := { n with persister := persister }
      if !ok then (n, .error .persistSnapshot)
      else
        match n.log.compact index with
        | none => (n, .error (.compactAbsent index))
        | some log =>
          let (saved, ok) := { n with log := log }.persist
          if ok then ({ saved with snapshotData := data }, .ok ())
          else ({ saved with log := n.log }, .error .persistCompacted)

theorem createSnapshot_cases (n : Node) (index : Nat) (data : List UInt8) :
    (∃ later, (n.createSnapshot index data).1 =
        { n with persister := ⟨n.persister.state, n.persister.snapshot, later⟩ }) ∨
      ∃ term later, n.log.sentinel.index < index ∧ index ≤ n.lastApplied ∧ index ≤ n.commitIndex ∧
        n.log.termAt index = some term ∧
        ((n.createSnapshot index data).1 =
            { n with persister := ⟨n.persister.state, some ⟨index, term, data⟩, later⟩ } ∨
          (n.createSnapshot index data).1 =
            { n with
              log := ⟨⟨index, term, []⟩, n.log.rest.drop (index - n.log.sentinel.index)⟩
              snapshotData := data
              persister := ⟨some ⟨n.currentTerm, n.votedFor, n.log.rest.drop (index - n.log.sentinel.index)⟩,
                some ⟨index, term, data⟩, later⟩ }) := by
  unfold createSnapshot
  split
  · exact Or.inl ⟨_, rfl⟩
  split
  · exact Or.inl ⟨_, rfl⟩
  split
  · exact Or.inl ⟨_, rfl⟩
  split
  · exact Or.inl ⟨_, rfl⟩
  rename_i _ above applied committed
  split
  · exact Or.inl ⟨_, rfl⟩
  rename_i term found
  rcases n.persister.saveSnapshot_cases ⟨index, term, data⟩ with ⟨later, saved⟩ | ⟨later, saved⟩
  · simp only [saved]
    exact Or.inl ⟨later, rfl⟩
  · simp only [saved, Bool.not_true, Bool.false_eq_true, if_false, Log.compact_of_termAt found]
    rcases persist_cases ({ n with
      log := ⟨⟨index, term, []⟩, n.log.rest.drop (index - n.log.sentinel.index)⟩
      persister := ⟨n.persister.state, some ⟨index, term, data⟩, later⟩ } : Node) with ⟨rest, done⟩ | ⟨rest, done⟩
    · simp only [done]
      exact Or.inr ⟨term, rest, by omega, by omega, by omega, found, Or.inl rfl⟩
    · simp only [done]
      exact Or.inr ⟨term, rest, by omega, by omega, by omega, found, Or.inr rfl⟩

def confirmSnapshotRestored (n : Node) (lastIncludedIndex : Nat) : Node × Except RaftError Unit :=
  if n.pendingSnapshot.map Snapshot.lastIncludedIndex ≠ some lastIncludedIndex then
    (n, .error (.noPendingSnapshot lastIncludedIndex))
  else if n.commitIndex < lastIncludedIndex then (n, .error (.confirmUncommitted lastIncludedIndex n.commitIndex))
  else
    let n := if n.lastApplied < lastIncludedIndex then
        { n with lastApplied := lastIncludedIndex }.notifyApplied else n
    ({ n with pendingSnapshot := none }, .ok ())

inductive ChunkOutcome where
  | rejected
  | incomplete
  | complete (data : List UInt8)
  deriving DecidableEq, Repr

/-- The transfer a chunk belongs to: a fresh one at offset zero, otherwise the one in progress
if the chunk fits it exactly. -/
def chunkTarget (n : Node) (args : InstallSnapshotArgs) : Option InProgressSnapshotTransfer :=
  if args.offset = 0 then some ⟨args.lastIncludedIndex, args.lastIncludedTerm, args.totalSize, []⟩
  else
    match n.chunkTransfer with
    | none => none
    | some cur =>
      if cur.lastIncludedIndex ≠ args.lastIncludedIndex ∨ cur.lastIncludedTerm ≠ args.lastIncludedTerm ∨
          cur.totalSize ≠ args.totalSize ∨ cur.buf.length ≠ args.offset then none
      else some cur

def receiveSnapshotChunk (n : Node) (args : InstallSnapshotArgs) : Node × ChunkOutcome :=
  if maxSnapshotDataSize < args.totalSize then (n, .rejected)
  else
    match n.chunkTarget args with
    | none => ({ n with chunkTransfer := none }, .rejected)
    | some transfer =>
      if checksum args.data ≠ args.checksum then ({ n with chunkTransfer := none }, .rejected)
      else if transfer.totalSize < transfer.buf.length + args.data.length then
        ({ n with chunkTransfer := none }, .rejected)
      else
        let transfer := { transfer with buf := transfer.buf ++ args.data }
        let n := { n with chunkTransfer := some transfer }
        if !args.final then (n, .incomplete)
        else if transfer.buf.length ≠ transfer.totalSize then ({ n with chunkTransfer := none }, .rejected)
        else (n, .complete transfer.buf)

inductive ChunkPath (n : Node) (args : InstallSnapshotArgs) : Node × ChunkOutcome → Prop where
  | oversized (large : maxSnapshotDataSize < args.totalSize) : ChunkPath n args (n, .rejected)
  | discarded (fits : args.totalSize ≤ maxSnapshotDataSize) :
    ChunkPath n args ({ n with chunkTransfer := none }, .rejected)
  | taken {transfer : InProgressSnapshotTransfer} (fits : args.totalSize ≤ maxSnapshotDataSize)
    (target : n.chunkTarget args = some transfer) (open_ : args.final = false) :
    ChunkPath n args ({ n with chunkTransfer := some { transfer with buf := transfer.buf ++ args.data } }, .incomplete)
  | completed {transfer : InProgressSnapshotTransfer} (fits : args.totalSize ≤ maxSnapshotDataSize)
    (target : n.chunkTarget args = some transfer) (last : args.final = true)
    (whole : (transfer.buf ++ args.data).length = transfer.totalSize) :
    ChunkPath n args ({ n with chunkTransfer := some { transfer with buf := transfer.buf ++ args.data } },
      .complete (transfer.buf ++ args.data))

theorem receiveSnapshotChunk_path (n : Node) (args : InstallSnapshotArgs) :
    ChunkPath n args (n.receiveSnapshotChunk args) := by
  unfold receiveSnapshotChunk
  split
  · rename_i large
    exact .oversized large
  rename_i fits
  have fits := Nat.le_of_not_lt fits
  split
  · exact .discarded fits
  rename_i transfer target
  split
  · exact .discarded fits
  split
  · exact .discarded fits
  dsimp only
  split
  · rename_i open_
    exact .taken fits target ((Bool.not_eq_true' _).mp open_)
  rename_i last
  have last : args.final = true := by simpa only [Bool.not_eq_true', Bool.not_eq_false] using last
  split
  · exact .discarded fits
  · rename_i whole
    exact .completed fits target last (not_not.mp whole)

theorem receiveSnapshotChunk_shape (n : Node) (args : InstallSnapshotArgs) :
    ∃ transfer, (n.receiveSnapshotChunk args).1 = { n with chunkTransfer := transfer } := by
  have path := n.receiveSnapshotChunk_path args
  generalize n.receiveSnapshotChunk args = result at path
  cases path <;> exact ⟨_, rfl⟩

def installSnapshot (n : Node) (snap : Snapshot) : Node × InstallSnapshotReply :=
  let (persister, ok) := n.persister.saveSnapshot snap
  let n := { n with persister := persister }
  if !ok then ({ n with chunkTransfer := none }, ⟨n.currentTerm, false⟩)
  else
    let log := n.log.installSnapshotBoundary snap.lastIncludedIndex snap.lastIncludedTerm
    let (saved, ok) := { n with log := log }.persist
    if !ok then ({ saved with log := n.log, chunkTransfer := none }, ⟨n.currentTerm, false⟩)
    else
      let n := { saved with snapshotData := snap.data, pendingSnapshot := some snap, chunkTransfer := none }
      let n := if n.commitIndex < snap.lastIncludedIndex then
          { n with commitIndex := snap.lastIncludedIndex }.notifyCommit else n
      (n, ⟨n.currentTerm, true⟩)

theorem installSnapshot_shape (n : Node) (snap : Snapshot) :
    let log := n.log.installSnapshotBoundary snap.lastIncludedIndex snap.lastIncludedTerm
    (∃ later saved, (saved = n.persister.snapshot ∨ saved = some snap) ∧
      n.installSnapshot snap =
        ({ n with persister := ⟨n.persister.state, saved, later⟩, chunkTransfer := none }, ⟨n.currentTerm, false⟩)) ∨
      ∃ later commitCh, n.installSnapshot snap =
        ({ n with
            log := log
            persister := ⟨some ⟨n.currentTerm, n.votedFor, log.rest⟩, some snap, later⟩
            snapshotData := snap.data
            pendingSnapshot := some snap
            chunkTransfer := none
            commitIndex := max n.commitIndex snap.lastIncludedIndex
            commitCh := commitCh },
          ⟨n.currentTerm, true⟩) := by
  intro log
  have shape : n.log.installSnapshotBoundary snap.lastIncludedIndex snap.lastIncludedTerm = log := rfl
  clear_value log
  rcases n.persister.saveSnapshot_cases snap with ⟨later, saved⟩ | ⟨later, saved⟩
  · simp only [installSnapshot, saved]
    exact Or.inl ⟨later, _, Or.inl rfl, rfl⟩
  · rcases persist_cases ({ n with
      log := log
      persister := ⟨n.persister.state, some snap, later⟩ } : Node) with ⟨rest, done⟩ | ⟨rest, done⟩
    · simp only [installSnapshot, saved, Bool.not_true, Bool.false_eq_true, if_false, shape, done]
      exact Or.inl ⟨rest, _, Or.inr rfl, rfl⟩
    · simp only [installSnapshot, saved, Bool.not_true, Bool.false_eq_true, if_false, shape, done]
      by_cases lower : n.commitIndex < snap.lastIncludedIndex
      · rw [if_pos lower, Nat.max_eq_right lower.le]
        exact Or.inr ⟨rest, _, rfl⟩
      · rw [if_neg lower, Nat.max_eq_left (Nat.le_of_not_lt lower)]
        exact Or.inr ⟨rest, n.commitCh, rfl⟩

def handleInstallSnapshot (n : Node) (args : InstallSnapshotArgs) : Node × InstallSnapshotReply :=
  let (n, current) := n.observeTerm args.term
  if !current then (n, ⟨n.currentTerm, false⟩)
  else
    let n := n.follow args.leaderID
    if args.lastIncludedIndex ≤ n.log.sentinel.index then
      let superseded := n.chunkTransfer.any fun transfer => transfer.lastIncludedIndex ≤ args.lastIncludedIndex
      (if superseded then { n with chunkTransfer := none } else n, ⟨n.currentTerm, true⟩)
    else if args.chunked then
      match n.receiveSnapshotChunk args with
      | (n, .rejected) => (n, ⟨n.currentTerm, false⟩)
      | (n, .incomplete) => (n, ⟨n.currentTerm, true⟩)
      | (n, .complete data) => n.installSnapshot ⟨args.lastIncludedIndex, args.lastIncludedTerm, data⟩
    else
      { n with chunkTransfer := none }.installSnapshot ⟨args.lastIncludedIndex, args.lastIncludedTerm, args.data⟩

/-- The payload of a snapshot call is at hand: the chunk completed it, or it was sent whole. -/
def Completes (n : Node) (args : InstallSnapshotArgs) (transfer : Option InProgressSnapshotTransfer)
    (data : List UInt8) : Prop :=
  args.chunked = true ∧ n.receiveSnapshotChunk args = ({ n with chunkTransfer := transfer }, .complete data) ∨
    args.chunked = false ∧ transfer = none ∧ data = args.data

inductive SnapshotPath (n : Node) (args : InstallSnapshotArgs) : Node × InstallSnapshotReply → Prop where
  | refused {m : Node} (observed : n.observeTerm args.term = (m, false)) :
    SnapshotPath n args (m, ⟨m.currentTerm, false⟩)
  | covered {m f : Node} {transfer : Option InProgressSnapshotTransfer}
    (observed : n.observeTerm args.term = (m, true)) (follows : m.follow args.leaderID = f)
    (behind : args.lastIncludedIndex ≤ f.log.sentinel.index) (kind : transfer = none ∨ transfer = f.chunkTransfer) :
    SnapshotPath n args ({ f with chunkTransfer := transfer }, ⟨f.currentTerm, true⟩)
  | received {m f : Node} {transfer : Option InProgressSnapshotTransfer} {success : Bool}
    (observed : n.observeTerm args.term = (m, true)) (follows : m.follow args.leaderID = f)
    (above : f.log.sentinel.index < args.lastIncludedIndex) (outcome : f.receiveSnapshotChunk args =
      ({ f with chunkTransfer := transfer }, if success then .incomplete else .rejected)) :
    SnapshotPath n args ({ f with chunkTransfer := transfer }, ⟨f.currentTerm, success⟩)
  | installed {m f : Node} {transfer : Option InProgressSnapshotTransfer} {data : List UInt8}
    (observed : n.observeTerm args.term = (m, true)) (follows : m.follow args.leaderID = f)
    (above : f.log.sentinel.index < args.lastIncludedIndex) (completes : f.Completes args transfer data) :
    SnapshotPath n args
      ({ f with chunkTransfer := transfer }.installSnapshot ⟨args.lastIncludedIndex, args.lastIncludedTerm, data⟩)

theorem handleInstallSnapshot_path (n : Node) (args : InstallSnapshotArgs) :
    SnapshotPath n args (n.handleInstallSnapshot args) := by
  unfold handleInstallSnapshot
  rcases observed : n.observeTerm args.term with ⟨m, accepted⟩
  cases accepted with
  | false => exact .refused observed
  | true =>
    simp only [Bool.not_true, Bool.false_eq_true, if_false]
    generalize follows : m.follow args.leaderID = f
    split
    · rename_i behind
      split
      · exact .covered observed follows behind (Or.inl rfl)
      · exact .covered observed follows behind (Or.inr rfl)
    rename_i ahead
    have above := Nat.lt_of_not_le ahead
    split
    · rename_i chunked
      obtain ⟨transfer, shape⟩ := f.receiveSnapshotChunk_shape args
      rcases outcome : f.receiveSnapshotChunk args with ⟨g, result⟩
      rw [outcome] at shape
      dsimp only at shape
      subst shape
      cases result with
      | rejected | incomplete => exact .received observed follows above outcome
      | complete data => exact .installed observed follows above (Or.inl ⟨chunked, outcome⟩)
    · rename_i whole
      exact .installed observed follows above (Or.inr ⟨Bool.not_eq_true _ ▸ whole, rfl, rfl⟩)

/-- What `readIndex` captures under the lock before it asks the peers. -/
structure ReadRound where
  term : Nat
  index : Nat
  majority : Nat
  calls : List Call
  deriving DecidableEq, Repr

def readIndexCalls (n : Node) : List Call :=
  let snapshotBoundary := n.log.sentinel.index
  n.peers.filterMap fun peer =>
    if n.nextIndex peer ≤ snapshotBoundary then none
    else some (.appendEntries peer (n.appendEntriesArgs peer))

def readIndexStart (n : Node) : Except RaftError ReadRound :=
  if n.role ≠ .leader then .error .notLeader
  else .ok ⟨n.currentTerm, n.commitIndex, n.majority, n.readIndexCalls⟩

/-- The end of `readIndex`, when every call has been answered or has failed; a cluster of one
returns without looking at the node again. -/
def readIndexFinish (n : Node) (round : ReadRound) (acks : Nat) : Except RaftError Nat :=
  if round.majority ≤ 1 then .ok round.index
  else
    let stillCurrent := n.role = .leader ∧ n.currentTerm = round.term
    if ¬stillCurrent ∨ 1 + acks < round.majority then .error .readBarrierUnavailable
    else .ok round.index

end Node

/-- The retained log after a snapshot: entries the snapshot covers are dropped, and the rest must
follow it directly. -/
def loadedSuffix (snap : Option Snapshot) (logEntries : List LogEntry) : Except RaftError (List LogEntry) :=
  match snap with
  | none => .ok logEntries
  | some snap =>
    let suffix := logEntries.filter fun e => snap.lastIncludedIndex < e.index
    match suffix with
    | [] => .ok suffix
    | first :: _ =>
      if first.index ≠ snap.lastIncludedIndex + 1 then .error (.persistedGap snap.lastIncludedIndex first.index)
      else .ok suffix

def newNode (opts : Options) : Except RaftError Node := do
  let state := opts.persister.state
  let snap := opts.persister.snapshot
  let logEntries ← loadedSuffix snap (state.elim [] PersistentState.log)
  let n : Node :=
    { id := opts.id
      peers := opts.peers
      currentTerm := state.elim 0 PersistentState.currentTerm
      votedFor := state.elim "" PersistentState.votedFor
      log := Log.newLogFromEntries (snap.elim 0 Snapshot.lastIncludedIndex)
        (snap.elim 0 Snapshot.lastIncludedTerm) logEntries
      commitIndex := 0
      lastApplied := 0
      role := .follower
      leaderID := ""
      votesReceived := []
      nextIndex := fun _ => 0
      matchIndex := fun _ => 0
      electionElapsed := 0
      electionTimeout := 0
      heartbeatElapsed := 0
      electionTickMin := if opts.electionTickMin = 0 then defaultElectionTickMin else opts.electionTickMin
      electionTickMax := if opts.electionTickMax = 0 then defaultElectionTickMax else opts.electionTickMax
      heartbeatTick := if opts.heartbeatTick = 0 then defaultHeartbeatTick else opts.heartbeatTick
      rnd := opts.rand
      persister := opts.persister
      commitCh := false
      appliedCh := false
      snapshotData := snap.elim [] Snapshot.data
      pendingSnapshot := snap
      snapshotChunkSize :=
        (if opts.snapshotChunkSize ≤ 0 then defaultSnapshotChunkSize else opts.snapshotChunkSize).toNat
      chunkTransfer := none }
  return n.resetElectionTimer

end ForgeDB.Raft
