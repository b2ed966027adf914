import ForgeDB.Raft.Cluster
import ForgeDB.Raft.Words.NoPanic

/-!
The numbers that the words stand for. As long as nothing wraps around, a node does to its words what the node
in numbers does to the numbers.
-/

namespace ForgeDB.Raft.Words

theorem toNat_succ {word : UInt64} (room : word.toNat + 1 < 2 ^ 64) : (word + 1).toNat = word.toNat + 1 := by
  rw [UInt64.toNat_add, UInt64.toNat_one, Nat.mod_eq_of_lt room]

def LogEntry.numbers (e : LogEntry) : Raft.LogEntry := ⟨e.index.toNat, e.term.toNat, e.command⟩

namespace Log

def numbers (l : Log) : Raft.Log := ⟨l.sentinel.numbers, l.rest.map LogEntry.numbers⟩

theorem numbers_entries (l : Log) : l.numbers.entries = l.entries.map LogEntry.numbers := rfl

theorem numbers_getElem? (l : Log) (offset : Nat) :
    l.numbers.entries[offset]? = l.entries[offset]?.map LogEntry.numbers := by
  rw [numbers_entries, List.getElem?_map]

theorem numbers_end (l : Log) : l.numbers.lastIndex = l.sentinel.index.toNat + l.rest.length := by
  rw [Raft.Log.lastIndex_eq]
  simp only [numbers, LogEntry.numbers, List.length_map]

theorem numbers_lastIndex {l : Log} (room : l.sentinel.index.toNat + l.rest.length < 2 ^ 64) :
    l.lastIndex.toNat = l.numbers.lastIndex := by
  have moved : l.lastIndex = l.sentinel.index + UInt64.ofNat l.rest.length := by
    rw [lastIndex, entries, List.length_cons, UInt64.ofNat_add, ← UInt64.add_assoc]
    exact UInt64.add_sub_cancel _ 1
  rw [moved, UInt64.toNat_add, UInt64.toNat_ofNat', Nat.add_mod_mod, Nat.mod_eq_of_lt room, numbers_end]

theorem numbers_lastTerm (l : Log) : l.lastTerm.toNat = l.numbers.lastTerm := by
  simp only [lastTerm, Raft.Log.lastTerm, numbers, entries, List.getLastD_eq_getLast?, List.getLast?_cons,
    List.getLast?_map, Option.getD_some]
  cases l.rest.getLast? <;> rfl

theorem numbers_termAt (l : Log) (index : UInt64) :
    l.numbers.termAt index.toNat = (l.termAt index).map UInt64.toNat := by
  unfold termAt Raft.Log.termAt
  have base : l.numbers.sentinel.index = l.sentinel.index.toNat := rfl
  by_cases below : index < l.sentinel.index
  · simp only [base, if_pos below, if_pos (UInt64.lt_iff_toNat_lt.mp below), Option.map_none]
  · have above := UInt64.not_lt.mp below
    simp only [base, if_neg below, if_neg (mt UInt64.lt_iff_toNat_lt.mpr below), numbers_getElem?, Option.map_map,
      UInt64.toNat_sub_of_le _ _ above]
    rfl

theorem termAt_eq_iff (l : Log) (index term : UInt64) :
    l.termAt index = some term ↔ l.numbers.termAt index.toNat = some term.toNat := by
  rw [numbers_termAt]
  cases l.termAt index <;> simp [UInt64.toNat_inj]

theorem numbers_renumber {startIdx : UInt64} {entries : List LogEntry}
    (room : startIdx.toNat + entries.length ≤ 2 ^ 64) :
    (renumber startIdx entries).map LogEntry.numbers =
      Raft.Log.renumber startIdx.toNat (entries.map LogEntry.numbers) := by
  apply List.ext_getElem?
  intro slot
  rw [Raft.Log.renumber_getElem?, List.getElem?_map, List.getElem?_map, renumber, List.getElem?_mapIdx]
  cases present : entries[slot]? with
  | none => rfl
  | some e =>
    have inside := (List.getElem?_eq_some_iff.mp present).1
    have place : (startIdx + UInt64.ofNat slot).toNat = startIdx.toNat + slot := by
      rw [UInt64.toNat_add, UInt64.toNat_ofNat', Nat.add_mod_mod, Nat.mod_eq_of_lt (by omega)]
    simp only [Option.map_some, LogEntry.numbers, place]

theorem numbers_append {l : Log} (room : l.sentinel.index.toNat + l.entries.length < 2 ^ 64) (e : LogEntry) :
    (l.append e).1.numbers = (l.numbers.append e.numbers).1 := by
  have place : (l.sentinel.index + UInt64.ofNat l.entries.length).toNat =
      l.sentinel.index.toNat + l.entries.length := by
    rw [UInt64.toNat_add, UInt64.toNat_ofNat', Nat.add_mod_mod, Nat.mod_eq_of_lt room]
  have length : l.numbers.entries.length = l.entries.length := by rw [numbers_entries, List.length_map]
  simp only [append, Raft.Log.append, length]
  simp only [numbers, LogEntry.numbers, List.map_append, List.map_cons, List.map_nil, place]

theorem numbers_appendAfterFrom {l : Log} {newEntries : List LogEntry} {idx : UInt64}
    (above : l.sentinel.index < idx) (room : idx.toNat + newEntries.length < 2 ^ 64) :
    (l.appendAfterFrom idx newEntries).1.numbers =
        (l.numbers.appendAfterFrom idx.toNat (newEntries.map LogEntry.numbers)).1 ∧
      (l.appendAfterFrom idx newEntries).2 =
        (l.numbers.appendAfterFrom idx.toNat (newEntries.map LogEntry.numbers)).2 := by
  induction newEntries generalizing idx with
  | nil => exact ⟨rfl, rfl⟩
  | cons e more ih =>
    rw [List.length_cons] at room
    have base : l.numbers.sentinel.index = l.sentinel.index.toNat := rfl
    have offset := UInt64.toNat_sub_of_le idx l.sentinel.index (UInt64.le_of_lt above)
    have renumbered := @numbers_renumber idx (e :: more) (by rw [List.length_cons]; omega)
    simp only [List.map_cons, appendAfterFrom, Raft.Log.appendAfterFrom, base, offset, numbers_getElem?]
    cases l.entries[idx.toNat - l.sentinel.index.toNat]? with
    | none =>
      simp only [Option.map_none, appendFrom, Raft.Log.appendFrom, numbers, List.map_append, renumbered, List.map_cons,
        and_self]
    | some own =>
      have terms : (own.numbers.term = e.numbers.term) = (own.term = e.term) := by
        simp only [LogEntry.numbers, UInt64.toNat_inj]
      simp only [Option.map_some, terms]
      by_cases same : own.term = e.term
      · simp only [if_pos same]
        have next := toNat_succ (show idx.toNat + 1 < 2 ^ 64 by omega)
        have later : l.sentinel.index < idx + 1 := by
          rw [UInt64.lt_iff_toNat_lt, next]
          exact Nat.lt_succ_of_lt (UInt64.lt_iff_toNat_lt.mp above)
        have rest := ih later (by omega)
        rwa [next] at rest
      · simp only [if_neg same, appendFrom, Raft.Log.appendFrom, truncate, Raft.Log.truncate, numbers, List.map_append,
          List.map_take, renumbered, List.map_cons, and_self]

theorem numbers_behind {l : Log} {index : UInt64} (present : (l.termAt index).isSome = true) :
    (l.entries.drop ((index - l.sentinel.index).toNat + 1)).map LogEntry.numbers =
      l.numbers.entries.drop (index.toNat - l.numbers.sentinel.index + 1) := by
  rw [List.map_drop, UInt64.toNat_sub_of_le _ _ (termAt_slot present).1]
  rfl

theorem numbers_compact (l : Log) (index : UInt64) :
    (l.compact index).map numbers = l.numbers.compact index.toNat := by
  unfold compact Raft.Log.compact
  rw [numbers_termAt]
  cases found : l.termAt index with
  | none => rfl
  | some term =>
    simp only [Option.map_some, numbers, numbers_behind (Option.isSome_iff_exists.mpr ⟨term, found⟩)]
    rfl

theorem numbers_installSnapshotBoundary (l : Log) (index term : UInt64) :
    (l.installSnapshotBoundary index term).numbers = l.numbers.installSnapshotBoundary index.toNat term.toNat := by
  unfold installSnapshotBoundary Raft.Log.installSnapshotBoundary
  by_cases found : l.termAt index = some term
  · rw [if_pos found, if_pos ((l.termAt_eq_iff index term).mp found)]
    simp only [numbers, numbers_behind (Option.isSome_iff_exists.mpr ⟨term, found⟩)]
    rfl
  · rw [if_neg found, if_neg (mt (l.termAt_eq_iff index term).mpr found)]
    rfl

end Log

def RawLog.numbers (r : RawLog) : Raft.Log :=
  ⟨(r.entries.items.headD default).numbers, r.entries.items.tail.map LogEntry.numbers⟩

theorem RawLog.Shows.numbers {r : RawLog} {l : Log} (shown : r.Shows l) : r.numbers = l.numbers := by
  rw [RawLog.numbers, shown]
  rfl

namespace Machine

open Checked

def RequestVoteArgs.numbers (args : RequestVoteArgs) : Raft.RequestVoteArgs :=
  ⟨args.term.toNat, args.candidateID, args.lastLogIndex.toNat, args.lastLogTerm.toNat⟩

def AppendEntriesArgs.numbers (args : AppendEntriesArgs) : Raft.AppendEntriesArgs :=
  ⟨args.term.toNat, args.leaderID, args.prevLogIndex.toNat, args.prevLogTerm.toNat,
    args.entries.items.map LogEntry.numbers, args.leaderCommit.toNat⟩

def InstallSnapshotArgs.numbers (args : InstallSnapshotArgs) : Raft.InstallSnapshotArgs :=
  ⟨args.term.toNat, args.leaderID, args.lastIncludedIndex.toNat, args.lastIncludedTerm.toNat, args.data.items,
    args.chunked, args.offset.toNat, args.final, args.totalSize.toNat, args.checksum⟩

def Snapshot.numbers (snap : Snapshot) : Raft.Snapshot :=
  ⟨snap.lastIncludedIndex.toNat, snap.lastIncludedTerm.toNat, snap.data.items⟩

def PersistentState.numbers (state : PersistentState) : Raft.PersistentState :=
  ⟨state.currentTerm.toNat, state.votedFor, state.log.items.map LogEntry.numbers⟩

def Persister.numbers (p : Persister) : Raft.Persister :=
  ⟨p.state.map PersistentState.numbers, p.snapshot.map Snapshot.numbers, p.faults⟩

def InProgressSnapshotTransfer.numbers (transfer : InProgressSnapshotTransfer) : Raft.InProgressSnapshotTransfer :=
  ⟨transfer.lastIncludedIndex.toNat, transfer.lastIncludedTerm.toNat, transfer.totalSize.toNat, transfer.buf.items⟩

def positions (m : NilMap String UInt64) (peer : String) : Nat := (m.get 0 peer).toNat

def Node.numbers (n : Node) : Raft.Node where
  id := n.id
  peers := n.peers
  currentTerm := n.currentTerm.toNat
  votedFor := n.votedFor
  log := n.log.numbers
  commitIndex := n.commitIndex.toNat
  lastApplied := n.lastApplied.toNat
  role := n.role
  leaderID := n.leaderID
  votesReceived := n.votesReceived.keys
  nextIndex := positions n.nextIndex
  matchIndex := positions n.matchIndex
  electionElapsed := n.electionElapsed.toInt
  electionTimeout := n.electionTimeout.toInt
  heartbeatElapsed := n.heartbeatElapsed.toInt
  electionTickMin := n.electionTickMin.toInt
  electionTickMax := n.electionTickMax.toInt
  heartbeatTick := n.heartbeatTick.toInt
  rnd := n.rnd
  persister := n.persister.numbers
  commitCh := n.commitCh
  appliedCh := n.appliedCh
  snapshotData := n.snapshotData.items
  pendingSnapshot := n.pendingSnapshot.map Snapshot.numbers
  snapshotChunkSize := n.snapshotChunkSize.toNatClampNeg
  chunkTransfer := n.chunkTransfer.map InProgressSnapshotTransfer.numbers

/-- The log has room behind it, and the range of the election timeouts is an integer. -/
structure Node.Roomy (n : Node) : Prop where
  log : ∃ l : Log, n.log.Shows l ∧ l.sentinel.index.toNat + l.rest.length + 1 < 2 ^ 64
  timer : -2 ^ 63 ≤ n.electionTickMax.toInt - n.electionTickMin.toInt ∧
    n.electionTickMax.toInt - n.electionTickMin.toInt < 2 ^ 63 - 1

namespace Node

variable {n : Node}

def Alike (r : Node × Bool) (x : Raft.Node × Bool) : Prop := (r.1.numbers, r.2) = x ∧ r.1.Roomy

def Same {α β : Type} (r : Node × α) (x : Raft.Node × β) : Prop := r.1.numbers = x.1

theorem resetElectionTimer_numbers (roomy : n.Roomy) :
    Gives (fun m x => m.numbers = x ∧ m.Roomy) n.resetElectionTimer n.numbers.resetElectionTimer := by
  obtain ⟨low, high⟩ := roomy.timer
  have spread : (n.electionTickMax - n.electionTickMin).toInt = n.electionTickMax.toInt - n.electionTickMin.toInt := by
    rw [Int64.toInt_sub]
    exact Int.bmod_eq_of_le (by omega) (by omega)
  refine Gives.guard ?_ ⟨rfl, roomy.log, roomy.timer⟩ fun positive => ?_
  · rw [Int64.le_iff_toInt_le, spread]
    rfl
  rw [Int64.le_iff_toInt_le, spread, show (0 : Int64).toInt = 0 from rfl] at positive
  obtain ⟨range, shape⟩ := Int.eq_ofNat_of_zero_le (Int.le_of_not_le positive)
  rw [shape] at spread high
  have bound : (n.electionTickMax - n.electionTickMin + 1).toInt = (range + 1 : Nat) := by
    rw [Int64.toInt_add, spread]
    exact Int.bmod_eq_of_le (by simp; omega) (by simp; omega)
  have drawn : intn (n.rnd 0) (n.electionTickMax - n.electionTickMin + 1) =
      .ok (Int64.ofNat (n.rnd 0 % (range + 1))) := by
    rw [intn, if_neg (by rw [Int64.le_iff_toInt_le, bound]; simp), Int64.toNatClampNeg, bound, Int.toNat_natCast]
  have small : n.rnd 0 % (range + 1) < range + 1 := Nat.mod_lt _ (Nat.succ_pos range)
  have timeout : (n.electionTickMin + Int64.ofNat (n.rnd 0 % (range + 1))).toInt =
      n.electionTickMin.toInt + (n.rnd 0 % (range + 1) : Nat) := by
    have largest := n.electionTickMax.toInt_lt
    have smallest := n.electionTickMin.le_toInt
    rw [Int64.toInt_add, Int64.toInt_ofNat_of_lt (by omega)]
    exact Int.bmod_eq_of_le (by omega) (by omega)
  rw [drawn, ok_bind]
  refine Gives.pure ⟨?_, roomy.log, roomy.timer⟩
  simp only [numbers, timeout, shape, Int.toNat_natCast]
  rfl

theorem saveState_numbers (p : Persister) (state : PersistentState) :
    ((p.saveState state).1.numbers, (p.saveState state).2) = p.numbers.saveState state.numbers := by
  obtain ⟨disk, snap, _ | ⟨_ | _, later⟩⟩ := p <;> rfl

theorem saveSnapshot_numbers (p : Persister) (snap : Snapshot) :
    ((p.saveSnapshot snap).1.numbers, (p.saveSnapshot snap).2) = p.numbers.saveSnapshot snap.numbers := by
  obtain ⟨disk, snap, _ | ⟨_ | _, later⟩⟩ := p <;> rfl

theorem persist_numbers (n : Node) :
    Gives (fun r x => (r.1.numbers, r.2) = x ∧ ∃ persister, r.1 = { n with persister := persister }) n.persist
      n.numbers.persist := by
  refine (n.log.entries.window_gives 1 _).bind fun copied items => Gives.pure ⟨?_, _, rfl⟩
  have saved := saveState_numbers n.persister ⟨n.currentTerm, n.votedFor, copied⟩
  have state : PersistentState.numbers ⟨n.currentTerm, n.votedFor, copied⟩ =
      ⟨n.numbers.currentTerm, n.numbers.votedFor, n.numbers.log.rest⟩ := by
    simp only [PersistentState.numbers, items, List.take_length, List.drop_one]
    rfl
  rw [state] at saved
  unfold Raft.Node.persist
  rw [show n.numbers.persister = n.persister.numbers from rfl, ← saved]
  rfl

theorem becomeFollower_numbers (roomy : n.Roomy) (term : UInt64) :
    Gives Alike (n.becomeFollower term) (n.numbers.becomeFollower term.toNat) := by
  refine (persist_numbers { n with currentTerm := term, votedFor := "" }).bind ?_
  rintro ⟨_, ok⟩ ⟨same, persister, rfl⟩
  unfold Raft.Node.becomeFollower
  rw [show ({ n.numbers with currentTerm := term.toNat, votedFor := "" } : Raft.Node) =
    numbers { n with currentTerm := term, votedFor := "" } from rfl, ← same]
  refine Gives.ite Iff.rfl (fun _ => ?_) fun _ => Gives.pure ⟨rfl, roomy.log, roomy.timer⟩
  refine Gives.bind (resetElectionTimer_numbers ⟨roomy.log, roomy.timer⟩) fun m reset => Gives.pure ⟨?_, reset.2⟩
  rw [reset.1]
  rfl

theorem observeTerm_numbers (roomy : n.Roomy) (term : UInt64) :
    Gives Alike (n.observeTerm term) (n.numbers.observeTerm term.toNat) := by
  unfold Node.observeTerm Raft.Node.observeTerm
  by_cases newer : n.currentTerm < term
  · rw [if_pos newer, if_pos (show n.numbers.currentTerm < _ from UInt64.lt_iff_toNat_lt.mp newer)]
    refine (becomeFollower_numbers roomy term).bind ?_
    rintro ⟨m, ok⟩ ⟨same, roomy⟩
    rw [← same]
    exact Gives.pure ⟨by simp only [UInt64.lt_iff_toNat_lt]; rfl, roomy⟩
  · rw [if_neg newer, if_neg (show ¬n.numbers.currentTerm < _ from mt UInt64.lt_iff_toNat_lt.mpr newer)]
    exact Gives.pure ⟨by simp only [UInt64.lt_iff_toNat_lt]; rfl, roomy⟩

theorem logIsUpToDate_numbers (a b c d : UInt64) :
    logIsUpToDate a b c d = Raft.logIsUpToDate a.toNat b.toNat c.toNat d.toNat := by
  simp only [logIsUpToDate, Raft.logIsUpToDate, UInt64.lt_iff_toNat_lt, UInt64.le_iff_toNat_le, ne_eq, UInt64.toNat_inj]

theorem handleRequestVote_numbers (roomy : n.Roomy) (args : RequestVoteArgs) :
    Gives Same (n.handleRequestVote args) (n.numbers.handleRequestVote args.numbers) := by
  refine (observeTerm_numbers roomy args.term).bind ?_
  rintro ⟨m, current⟩ ⟨same, roomy⟩
  unfold Raft.Node.handleRequestVote
  rw [show args.numbers.term = args.term.toNat from rfl, ← same]
  refine Gives.guard Iff.rfl rfl fun _ => ?_
  obtain ⟨l, shown, room⟩ := roomy.log
  rw [shown.lastIndex, shown.lastTerm, ok_bind, ok_bind, logIsUpToDate_numbers, Log.numbers_lastIndex (by omega),
    l.numbers_lastTerm, ← shown.numbers]
  refine Gives.guard Iff.rfl rfl fun _ => ?_
  refine (persist_numbers { m with votedFor := args.candidateID }).bind ?_
  rintro ⟨_, ok⟩ ⟨saved, persister, rfl⟩
  dsimp only [RequestVoteArgs.numbers]
  rw [show ({ m.numbers with votedFor := args.candidateID } : Raft.Node) =
    numbers { m with votedFor := args.candidateID } from rfl, ← saved]
  refine Gives.ite Iff.rfl (fun _ => ?_) fun _ => Gives.pure rfl
  exact Gives.bind (resetElectionTimer_numbers ⟨roomy.log, roomy.timer⟩) fun m reset => Gives.pure reset.1

theorem replicas_numbers (n : Node) (index : UInt64) : n.replicas index = n.numbers.replicas index.toNat := by
  simp only [replicas, Raft.Node.replicas, UInt64.le_iff_toNat_le]
  rfl

theorem maybeAdvanceCommitIndexFrom_numbers {l : Log} (shown : n.log.Shows l) {N : Nat} (bound : N < 2 ^ 64) :
    Gives (fun m x => m.numbers = x) (n.maybeAdvanceCommitIndexFrom N) (n.numbers.maybeAdvanceCommitIndexFrom N) := by
  induction N with
  | zero => exact Gives.pure rfl
  | succ N ih =>
    have word : (UInt64.ofNat (N + 1)).toNat = N + 1 := by rw [UInt64.toNat_ofNat', Nat.mod_eq_of_lt bound]
    refine Gives.guard ?_ rfl fun _ => ?_
    · rw [UInt64.le_iff_toNat_le, word]
      rfl
    rw [shown.termAt, ok_bind]
    refine Gives.ite ?_ (fun _ => ih (by omega)) fun _ => ?_
    · rw [ne_eq, l.termAt_eq_iff, word, ← shown.numbers]
      rfl
    refine Gives.ite ?_ (fun _ => Gives.pure ?_) fun _ => ih (by omega)
    · rw [replicas_numbers, word]
      rfl
    · simp only [numbers, notifyCommit, word]
      rfl

theorem maybeAdvanceCommitIndex_numbers {l : Log} (shown : n.log.Shows l)
    (room : l.sentinel.index.toNat + l.rest.length < 2 ^ 64) :
    Gives (fun m x => m.numbers = x) n.maybeAdvanceCommitIndex n.numbers.maybeAdvanceCommitIndex := by
  rw [Node.maybeAdvanceCommitIndex, shown.lastIndex, ok_bind, Raft.Node.maybeAdvanceCommitIndex,
    show n.numbers.log = l.numbers from shown.numbers, ← Log.numbers_lastIndex room]
  exact maybeAdvanceCommitIndexFrom_numbers shown l.lastIndex.toNat_lt

theorem broadcastAppendEntries_numbers {l : Log} (shown : n.log.Shows l)
    (room : l.sentinel.index.toNat + l.rest.length < 2 ^ 64) :
    Gives Same n.broadcastAppendEntries n.numbers.broadcastAppendEntries := by
  refine Gives.skip fun calls => ?_
  exact (maybeAdvanceCommitIndex_numbers shown room).bind fun m same => Gives.pure same

theorem set_numbers (m : NilMap String UInt64) (peer : String) (position : UInt64) :
    Gives (fun after x => positions after = x) (m.set peer position)
      (Function.update (positions m) peer position.toNat) := by
  intro after done
  funext other
  rw [positions, m.set_get 0 peer position after done, Function.update_apply, Function.update_apply,
    apply_ite UInt64.toNat]
  rfl

theorem filled_numbers (peers : List String) (value : UInt64) (m : NilMap String UInt64) :
    Gives (fun after x => positions after = x) (peers.foldlM (fun m peer => m.set peer value) m)
      fun peer => if peer ∈ peers then value.toNat else positions m peer := by
  induction peers generalizing m with
  | nil => exact Gives.pure (funext fun _ => (if_neg List.not_mem_nil).symm)
  | cons peer peers ih =>
    rw [List.foldlM_cons]
    refine (set_numbers m peer value).bind fun after set final done =>
      (ih after final done).trans (funext fun other => ?_)
    rw [set, Function.update_apply]
    simp only [List.mem_cons]
    grind

theorem becomeLeader_numbers {l : Log} (shown : n.log.Shows l)
    (room : l.sentinel.index.toNat + l.rest.length + 1 < 2 ^ 64) :
    Gives Same n.becomeLeader n.numbers.becomeLeader := by
  have last := Log.numbers_lastIndex (show l.sentinel.index.toNat + l.rest.length < 2 ^ 64 by omega)
  rw [Node.becomeLeader, shown.lastIndex, ok_bind]
  refine (filled_numbers n.peers (l.lastIndex + 1) .made).bind fun nextIndex next => ?_
  refine (filled_numbers n.peers 0 .made).bind fun matchIndex matching => ?_
  rw [toNat_succ (by rw [last, l.numbers_end]; omega), last, ← shown.numbers] at next
  have matching : positions matchIndex = fun _ => 0 := matching.trans (funext fun _ => ite_self 0)
  refine (congrArg (fun x => Gives Same _ (Raft.Node.broadcastAppendEntries x)) ?_).mp
    (broadcastAppendEntries_numbers shown (by omega))
  simp only [numbers, next, matching]
  rfl

theorem standing_numbers (roomy : n.Roomy) (calls : List Call) (calls' : List Raft.Call) :
    Gives Same (if n.majority ≤ n.votesReceived.size then n.becomeLeader else return (n, calls))
      (if n.numbers.majority ≤ n.numbers.votesReceived.length then n.numbers.becomeLeader
        else (n.numbers, calls')) := by
  obtain ⟨l, shown, room⟩ := roomy.log
  refine Gives.ite ?_ (fun _ => becomeLeader_numbers shown room) fun _ => Gives.pure rfl
  rw [NilMap.size, ← List.length_map Prod.fst]
  rfl

theorem startElection_numbers (roomy : n.Roomy) (room : n.currentTerm.toNat + 1 < 2 ^ 64) :
    Gives Same n.startElection n.numbers.startElection := by
  have next := toNat_succ room
  refine (persist_numbers { n with currentTerm := n.currentTerm + 1, votedFor := n.id }).bind ?_
  rintro ⟨_, ok⟩ ⟨same, persister, rfl⟩
  unfold Raft.Node.startElection
  rw [show ({ n.numbers with currentTerm := n.numbers.currentTerm + 1, votedFor := n.numbers.id } : Raft.Node) =
    numbers { n with currentTerm := n.currentTerm + 1, votedFor := n.id } by simp only [numbers, next], ← same]
  refine Gives.ite Iff.rfl (fun _ => ?_) fun _ => Gives.pure rfl
  refine Gives.bind (resetElectionTimer_numbers ⟨roomy.log, roomy.timer⟩) fun m ⟨reset, roomy⟩ => ?_
  obtain ⟨l, shown, room⟩ := roomy.log
  rw [shown.lastIndex, shown.lastTerm, ok_bind, ok_bind]
  generalize shape : Raft.Node.resetElectionTimer _ = x
  obtain rfl : m.numbers = x := reset.trans shape
  exact standing_numbers roomy _ _

theorem timeout_numbers (roomy : n.Roomy) (room : n.currentTerm.toNat + 1 < 2 ^ 64) :
    Gives Same (if n.electionTimeout ≤ n.electionElapsed then n.startElection else return (n, []))
      (if n.numbers.electionTimeout ≤ n.numbers.electionElapsed then n.numbers.startElection else (n.numbers, [])) :=
  Gives.ite Int64.le_iff_toInt_le (fun _ => startElection_numbers roomy room) fun _ => Gives.pure rfl

theorem toInt_succ {ticks : Int64} (room : ticks.toInt + 1 < 2 ^ 63) : (ticks + 1).toInt = ticks.toInt + 1 := by
  have low := ticks.le_toInt
  rw [Int64.toInt_add]
  exact Int.bmod_eq_of_le (by simp; omega) (by simp; omega)

theorem tick_numbers (roomy : n.Roomy) (room : n.currentTerm.toNat + 1 < 2 ^ 64)
    (elections : n.electionElapsed.toInt + 1 < 2 ^ 63) (heartbeats : n.heartbeatElapsed.toInt + 1 < 2 ^ 63) :
    Gives Same n.tick n.numbers.tick := by
  have counted : numbers { n with electionElapsed := n.electionElapsed + 1 } =
    { n.numbers with electionElapsed := n.numbers.electionElapsed + 1 } := by simp only [numbers, toInt_succ elections]
  have elapsed :=
    timeout_numbers (n := { n with electionElapsed := n.electionElapsed + 1 }) ⟨roomy.log, roomy.timer⟩ room
  rw [counted] at elapsed
  unfold Node.tick Raft.Node.tick
  split <;> rename_i role <;> split <;> rename_i role'
  · refine Gives.ite (p := n.heartbeatTick ≤ n.heartbeatElapsed + 1) ?_ (fun _ => ?_) fun _ => Gives.pure ?_
    · rw [Int64.le_iff_toInt_le, toInt_succ heartbeats]
      rfl
    · obtain ⟨l, shown, room⟩ := roomy.log
      exact broadcastAppendEntries_numbers shown (by omega)
    · simp only [Same, numbers, toInt_succ heartbeats]
  · exact absurd role role'
  · exact absurd role' role
  · exact elapsed

/-- A reply of a later term makes the node step down, and one to a call that is out of date is ignored. -/
theorem reply_numbers {α β : Type} (roomy : n.Roomy) (role : Role) (term reply : UInt64) (idle : α) (idle' : β)
    {c : Checked (Node × α)} {x : Raft.Node × β} (rest : Gives Same c x) :
    Gives Same
      (if n.currentTerm < reply then do
        let (n, _) ← n.becomeFollower reply
        return (n, idle)
      else if n.role ≠ role ∨ n.currentTerm ≠ term then return (n, idle) else c)
      (if n.numbers.currentTerm < reply.toNat then ((n.numbers.becomeFollower reply.toNat).1, idle')
      else if n.numbers.role ≠ role ∨ n.numbers.currentTerm ≠ term.toNat then (n.numbers, idle') else x) := by
  refine Gives.ite UInt64.lt_iff_toNat_lt (fun _ => ?_) fun _ => ?_
  · exact (becomeFollower_numbers roomy reply).bind fun r alike => Gives.pure (congrArg Prod.fst alike.1)
  exact Gives.guard (or_congr Iff.rfl (not_congr UInt64.toNat_inj.symm)) rfl fun _ => rest

theorem sendRequestVoteReply_numbers (roomy : n.Roomy) (peer : String) (term : UInt64) (reply : RequestVoteReply) :
    Gives Same (n.sendRequestVoteReply peer term reply)
      (n.numbers.sendRequestVoteReply peer term.toNat ⟨reply.term.toNat, reply.voteGranted⟩) := by
  refine reply_numbers roomy .candidate term reply.term [] [] ?_
  refine Gives.guard Iff.rfl rfl fun _ => ?_
  refine (n.votesReceived.set_keys peer true).bind fun votesReceived keys => ?_
  have counted : numbers { n with votesReceived := votesReceived } =
    { n.numbers with votesReceived := n.numbers.votesReceived.insert peer } := by simp only [numbers, keys]
  have stands := standing_numbers (n := { n with votesReceived := votesReceived }) ⟨roomy.log, roomy.timer⟩ [] []
  rw [counted] at stands
  exact stands

theorem raise_numbers (m : NilMap String UInt64) (peer : String) (position : UInt64) :
    Gives (fun after x => positions after = x) (raise m peer position)
      (if positions m peer < position.toNat then Function.update (positions m) peer position.toNat else positions m) :=
  Gives.ite UInt64.lt_iff_toNat_lt (fun _ => set_numbers m peer position) fun _ => Gives.pure rfl

theorem noteProgress_numbers (roomy : n.Roomy) (peer : String) {position : UInt64}
    (room : position.toNat + 1 < 2 ^ 64) :
    Gives (fun m x => m.numbers = x) (n.noteProgress peer position)
      (n.numbers.noteProgress peer position.toNat).maybeAdvanceCommitIndex := by
  refine (raise_numbers n.matchIndex peer position).bind fun matchIndex matching => ?_
  refine (raise_numbers n.nextIndex peer (position + 1)).bind fun nextIndex next => ?_
  rw [toNat_succ room] at next
  have noted : numbers { n with matchIndex := matchIndex, nextIndex := nextIndex } =
      n.numbers.noteProgress peer position.toNat := by
    by_cases behind : positions n.matchIndex peer < position.toNat <;>
      by_cases later : positions n.nextIndex peer < position.toNat + 1 <;>
      simp only [numbers, matching, next, Raft.Node.noteProgress, behind, later, if_true, if_false]
  obtain ⟨l, shown, room⟩ := roomy.log
  rw [← noted]
  exact maybeAdvanceCommitIndex_numbers shown (by omega)

theorem sendAppendEntriesReply_numbers (roomy : n.Roomy) (peer : String) {args : AppendEntriesArgs}
    (room : args.prevLogIndex.toNat + args.entries.items.length + 1 < 2 ^ 64) (reply : AppendEntriesReply) :
    Gives Same (n.sendAppendEntriesReply peer args reply)
      (n.numbers.sendAppendEntriesReply peer args.numbers ⟨reply.term.toNat, reply.success⟩) := by
  have reached :
      (args.prevLogIndex + args.entries.len).toNat = args.prevLogIndex.toNat + args.entries.items.length := by
    rw [UInt64.toNat_add, Slice.toNat_len, Nat.mod_eq_of_lt (by omega)]
  refine reply_numbers roomy .leader args.term reply.term false false ?_
  refine Gives.ite Iff.rfl (fun _ => ?_) fun _ => ?_
  · refine (noteProgress_numbers roomy peer (by rw [reached]; exact room)).bind fun m noted => Gives.pure ?_
    rw [Same, noted, reached, ← List.length_map LogEntry.numbers]
    rfl
  refine Gives.ite UInt64.lt_iff_toNat_lt (fun more => ?_) fun _ => Gives.pure rfl
  refine (set_numbers n.nextIndex peer _).bind fun nextIndex set => Gives.pure ?_
  rw [UInt64.toNat_sub_of_le _ _ (UInt64.le_of_lt more)] at set
  simp only [Same, numbers, set]
  rfl

theorem sendInstallSnapshotReply_numbers (roomy : n.Roomy) (peer : String) {snap : Snapshot}
    (room : snap.lastIncludedIndex.toNat + 1 < 2 ^ 64) (args : InstallSnapshotArgs) (stop : UInt64)
    (reply : InstallSnapshotReply) :
    Gives Same (n.sendInstallSnapshotReply peer snap args stop reply)
      (n.numbers.sendInstallSnapshotReply peer snap.numbers args.numbers ⟨reply.term.toNat, reply.success⟩) := by
  refine reply_numbers roomy .leader args.term reply.term [] [] ?_
  refine Gives.guard Iff.rfl rfl fun _ => ?_
  refine Gives.ite Iff.rfl (fun _ => ?_) fun _ => ?_
  · exact (noteProgress_numbers roomy peer room).bind fun m noted => Gives.pure noted
  · exact Gives.skip fun _ => Gives.pure rfl

theorem appendAfter_numbers {r : RawLog} {l : Log} (shown : r.Shows l) {prevIndex : UInt64} {entries : Slice LogEntry}
    (present : (l.termAt prevIndex).isSome = true) (room : prevIndex.toNat + entries.items.length + 1 < 2 ^ 64) :
    Gives (fun result x => (result.1.numbers, result.2) = x ∧ (result.2 = false → result.1.numbers = r.numbers))
      (r.appendAfter prevIndex entries)
      (r.numbers.appendAfter prevIndex.toNat (entries.items.map LogEntry.numbers)) := by
  refine Gives.of_safe (shown.appendAfter present entries) ?_
  rintro ⟨log, changed⟩ ⟨shows', rfl, -⟩
  have above := UInt64.le_iff_toNat_le.mp (Log.termAt_slot present).1
  have next := toNat_succ (show prevIndex.toNat + 1 < 2 ^ 64 by omega)
  have both := @Log.numbers_appendAfterFrom l entries.items (prevIndex + 1)
    (UInt64.lt_iff_toNat_lt.mpr (by omega)) (by omega)
  rw [next] at both
  dsimp only
  rw [shows'.numbers, shown.numbers]
  refine ⟨Prod.ext both.1 both.2, fun same => ?_⟩
  rw [Log.appendAfter, Log.appendAfterFrom_same same]

theorem commitUpTo_numbers {args : AppendEntriesArgs}
    (room : args.prevLogIndex.toNat + args.entries.items.length + 1 < 2 ^ 64) :
    (n.commitUpTo args).numbers =
      (let lastNew := args.numbers.prevLogIndex + args.numbers.entries.length
      let newCommit := if lastNew < args.numbers.leaderCommit then lastNew else args.numbers.leaderCommit
      if n.numbers.commitIndex < args.numbers.leaderCommit ∧ n.numbers.commitIndex < newCommit then
        { n.numbers with commitIndex := newCommit }.notifyCommit else n.numbers) := by
  have reached :
      (args.prevLogIndex + args.entries.len).toNat = args.numbers.prevLogIndex + args.numbers.entries.length := by
    simp only [UInt64.toNat_add, Slice.toNat_len, AppendEntriesArgs.numbers, List.length_map]
    exact Nat.mod_eq_of_lt (by omega)
  rw [commitUpTo, ← reached, apply_ite numbers]
  refine ite_congr ?_ (fun _ => ?_) fun _ => rfl
  · simp only [UInt64.lt_iff_toNat_lt, apply_ite UInt64.toNat]
    rfl
  · simp only [numbers, notifyCommit, apply_ite UInt64.toNat, UInt64.lt_iff_toNat_lt]
    rfl

theorem follow_numbers (roomy : n.Roomy) (leaderID : String) :
    Gives (fun m x => m.numbers = x ∧ m.Roomy) (n.follow leaderID) (n.numbers.follow leaderID) :=
  resetElectionTimer_numbers (n := { n with role := .follower, leaderID := leaderID }) ⟨roomy.log, roomy.timer⟩

theorem handleAppendEntries_numbers (roomy : n.Roomy) {args : AppendEntriesArgs}
    (room : args.prevLogIndex.toNat + args.entries.items.length + 1 < 2 ^ 64) :
    Gives Same (n.handleAppendEntries args) (n.numbers.handleAppendEntries args.numbers) := by
  refine (observeTerm_numbers roomy args.term).bind ?_
  rintro ⟨m, current⟩ ⟨same, roomy⟩
  unfold Raft.Node.handleAppendEntries
  rw [show args.numbers.term = args.term.toNat from rfl, ← same]
  refine Gives.guard Iff.rfl rfl fun _ => ?_
  refine (follow_numbers roomy args.leaderID).bind fun f ⟨follows, roomy⟩ => ?_
  dsimp only [AppendEntriesArgs.numbers]
  rw [← follows]
  obtain ⟨l, shown, -⟩ := roomy.log
  rw [shown.termAt, ok_bind]
  refine Gives.guard (not_congr ?_) rfl fun agrees => ?_
  · rw [l.termAt_eq_iff, ← shown.numbers]
    rfl
  have present := Option.isSome_iff_exists.mpr ⟨_, not_not.mp agrees⟩
  refine (appendAfter_numbers shown present room).bind ?_
  rintro ⟨log, changed⟩ ⟨appended, unchanged⟩
  rw [show f.numbers.log = f.log.numbers from rfl, ← appended]
  cases changed with
  | false =>
    have kept : numbers { f with log := log } = f.numbers := by simp only [numbers, unchanged rfl]
    refine Gives.pure ?_
    rw [Same, commitUpTo_numbers room, kept]
    rfl
  | true =>
    refine (persist_numbers { f with log := log }).bind ?_
    rintro ⟨_, ok⟩ ⟨saved, persister, rfl⟩
    dsimp only
    rw [if_pos rfl, show ({ f.numbers with log := log.numbers } : Raft.Node) = numbers { f with log := log } from rfl,
      ← saved]
    refine Gives.guard Iff.rfl rfl fun _ => Gives.pure ?_
    rw [Same, commitUpTo_numbers room]
    rfl

theorem propose_numbers (roomy : n.Roomy) (command : Bytes) :
    Gives Same (n.propose command) (n.numbers.propose command) := by
  refine Gives.guard Iff.rfl rfl fun _ => ?_
  obtain ⟨l, shown, room⟩ := roomy.log
  have grown := @Log.numbers_append l room ⟨0, n.currentTerm, command⟩
  refine Gives.bind (S := fun r x => r.1.Shows x) (Gives.of_safe (shown.append _) fun _ result => result.1) ?_
  rintro ⟨log, index⟩ shows'
  have later : numbers { n with log := log } =
      { n.numbers with log := (n.numbers.log.append ⟨0, n.numbers.currentTerm, command⟩).1 } := by
    simp only [numbers, shows'.numbers, shown.numbers, grown]
    rfl
  refine (persist_numbers { n with log := log }).bind ?_
  rintro ⟨_, ok⟩ ⟨saved, persister, rfl⟩
  dsimp only
  rw [← later, ← saved]
  refine Gives.ite Iff.rfl (fun _ => ?_) fun _ => ?_
  · refine Gives.bind (broadcastAppendEntries_numbers shows' ?_) fun r same => Gives.pure same
    simp only [Log.append, List.length_append, List.length_singleton]
    omega
  · refine (log.entries.window_gives 0 _).bind fun entries items => Gives.pure ?_
    have old : entries.items = n.log.entries.items := by
      rw [items, List.drop_zero, shows', shown]
      exact @List.take_left _ _ [_]
    simp only [Same, numbers, RawLog.numbers, old]

theorem Same.ite {α β : Type} {p q : Prop} [Decidable p] [Decidable q] {r r' : Node × α} {x x' : Raft.Node × β}
    (same : p ↔ q) (yes : Same r x) (no : Same r' x') : Same (if p then r else r') (if q then x else x') := by
  by_cases holds : p
  · rwa [if_pos holds, if_pos (same.mp holds)]
  · rwa [if_neg holds, if_neg (mt same.mpr holds)]

theorem markApplied_numbers (n : Node) (index : UInt64) :
    Same (n.markApplied index) (n.numbers.markApplied index.toNat) :=
  .ite UInt64.le_iff_toNat_le rfl (.ite UInt64.lt_iff_toNat_lt rfl rfl)

theorem confirmSnapshotRestored_numbers (n : Node) (lastIncludedIndex : UInt64) :
    Same (n.confirmSnapshotRestored lastIncludedIndex) (n.numbers.confirmSnapshotRestored lastIncludedIndex.toNat) := by
  have pending : n.pendingSnapshot.map Snapshot.lastIncludedIndex = some lastIncludedIndex ↔
      n.numbers.pendingSnapshot.map Raft.Snapshot.lastIncludedIndex = some lastIncludedIndex.toNat := by
    cases shape : n.pendingSnapshot <;> simp [numbers, shape, Snapshot.numbers, UInt64.toNat_inj]
  refine .ite (not_congr pending) rfl (.ite UInt64.lt_iff_toNat_lt rfl ?_)
  by_cases behind : n.lastApplied < lastIncludedIndex
  · rw [if_pos behind, if_pos (show n.numbers.lastApplied < _ from UInt64.lt_iff_toNat_lt.mp behind)]
    rfl
  · rw [if_neg behind, if_neg (show ¬n.numbers.lastApplied < _ from mt UInt64.lt_iff_toNat_lt.mpr behind)]
    rfl

theorem createSnapshot_numbers (roomy : n.Roomy) (index : UInt64) (data : Slice UInt8) :
    Gives Same (n.createSnapshot index data) (n.numbers.createSnapshot index.toNat data.items) := by
  obtain ⟨l, shown, -⟩ := roomy.log
  have log : n.numbers.log = l.numbers := shown.numbers
  unfold Node.createSnapshot Raft.Node.createSnapshot
  rw [shown.first, ok_bind, shown.termAt, ok_bind]
  refine Gives.guard UInt64.toNat_inj.symm rfl fun _ => ?_
  refine Gives.guard ?_ rfl fun _ => ?_
  · rw [log]
    exact UInt64.le_iff_toNat_le
  refine Gives.guard UInt64.lt_iff_toNat_lt rfl fun _ => ?_
  refine Gives.guard UInt64.lt_iff_toNat_lt rfl fun _ => ?_
  rw [show n.numbers.log.termAt index.toNat = _ from log ▸ l.numbers_termAt index]
  cases l.termAt index with
  | none => exact Gives.pure rfl
  | some term =>
    have saved := saveSnapshot_numbers n.persister ⟨index, term, data⟩
    dsimp only [Option.map_some]
    rw [show n.numbers.persister.saveSnapshot ⟨index.toNat, term.toNat, data.items⟩ = _ from saved.symm]
    obtain ⟨persister, ok⟩ := n.persister.saveSnapshot ⟨index, term, data⟩
    refine Gives.guard Iff.rfl rfl fun _ => ?_
    obtain ⟨result, cut, outcome⟩ := shown.compact index
    rw [cut, ok_bind, show n.numbers.log.compact index.toNat = _ from log ▸ (l.numbers_compact index).symm]
    rcases outcome with ⟨rfl, none⟩ | ⟨log, small, rfl, some, shows', -⟩
    · rw [none]
      exact Gives.pure rfl
    · rw [some, Option.map_some, ← shows'.numbers]
      refine (persist_numbers { n with log := log, persister := persister }).bind ?_
      rintro ⟨_, ok⟩ ⟨saved, _, rfl⟩
      dsimp only
      rw [show ({ n.numbers with log := log.numbers, persister := persister.numbers } : Raft.Node) =
        numbers { n with log := log, persister := persister } from rfl, ← saved]
      exact Gives.guard Iff.rfl rfl fun _ => Gives.pure rfl

theorem installSnapshot_numbers {l : Log} (shown : n.log.Shows l) (snap : Snapshot) :
    Gives Same (n.installSnapshot snap) (n.numbers.installSnapshot snap.numbers) := by
  have saved := saveSnapshot_numbers n.persister snap
  unfold Node.installSnapshot Raft.Node.installSnapshot
  rw [show n.numbers.persister.saveSnapshot snap.numbers = _ from saved.symm]
  obtain ⟨persister, ok⟩ := n.persister.saveSnapshot snap
  refine Gives.guard Iff.rfl rfl fun _ => ?_
  obtain ⟨log, moved, shows', -⟩ := shown.installSnapshotBoundary snap.lastIncludedIndex snap.lastIncludedTerm
  have boundary : log.numbers =
      n.numbers.log.installSnapshotBoundary snap.numbers.lastIncludedIndex snap.numbers.lastIncludedTerm := by
    rw [shows'.numbers, l.numbers_installSnapshotBoundary, ← shown.numbers]
    rfl
  rw [moved, ok_bind]
  refine (persist_numbers { n with log := log, persister := persister }).bind ?_
  rintro ⟨_, ok⟩ ⟨saved, _, rfl⟩
  dsimp only
  rw [← boundary, show ({ n.numbers with log := log.numbers, persister := persister.numbers } : Raft.Node) =
    numbers { n with log := log, persister := persister } from rfl, ← saved]
  refine Gives.guard Iff.rfl rfl fun _ => Gives.pure ?_
  dsimp only [Same]
  rw [apply_ite numbers]
  exact ite_congr (propext UInt64.lt_iff_toNat_lt) (fun _ => rfl) fun _ => rfl

theorem chunkTarget_numbers (n : Node) (args : InstallSnapshotArgs) :
    (n.chunkTarget args).map InProgressSnapshotTransfer.numbers = n.numbers.chunkTarget args.numbers := by
  unfold chunkTarget Raft.Node.chunkTarget
  rw [apply_ite (Option.map _)]
  refine ite_congr (propext UInt64.toNat_inj.symm) (fun _ => rfl) fun _ => ?_
  dsimp only [numbers]
  cases n.chunkTransfer with
  | none => rfl
  | some cur =>
    dsimp only [Option.map_some]
    rw [apply_ite (Option.map _)]
    refine ite_congr ?_ (fun _ => rfl) fun _ => rfl
    simp only [InProgressSnapshotTransfer.numbers, InstallSnapshotArgs.numbers, ne_eq, ← UInt64.toNat_inj,
      Slice.toNat_len]

def Outcome (result : Node × ChunkOutcome) (x : Raft.Node × Raft.Node.ChunkOutcome) : Prop :=
  Same result x ∧ x.2 = match result.2 with
    | .rejected => .rejected
    | .incomplete => .incomplete
    | .complete data => .complete data.items

theorem receiveSnapshotChunk_numbers (n : Node) (args : InstallSnapshotArgs) :
    Gives (fun result x => result.1.log = n.log ∧ Outcome result x) (n.receiveSnapshotChunk args)
      (n.numbers.receiveSnapshotChunk args.numbers) := by
  have target := n.chunkTarget_numbers args
  unfold Node.receiveSnapshotChunk Raft.Node.receiveSnapshotChunk
  refine Gives.guard UInt64.lt_iff_toNat_lt ⟨rfl, rfl, rfl⟩ fun _ => ?_
  rw [← target]
  cases n.chunkTarget args with
  | none => exact Gives.pure ⟨rfl, rfl, rfl⟩
  | some transfer =>
    have left := transfer.buf.fits
    have right := args.data.fits
    refine Gives.guard Iff.rfl ⟨rfl, rfl, rfl⟩ fun _ => ?_
    refine Gives.guard ?_ ⟨rfl, rfl, rfl⟩ fun _ => ?_
    · rw [UInt64.lt_iff_toNat_lt, UInt64.toNat_add, Slice.toNat_len, Slice.toNat_len, Nat.mod_eq_of_lt (by omega)]
      rfl
    refine Gives.bind (S := fun buf items => buf.items = items)
      (Gives.of_safe (Slice.append_safe _ _) fun _ same => same)
      fun buf items => ?_
    simp only [show transfer.numbers.buf ++ args.numbers.data = buf.items from items.symm]
    refine Gives.guard Iff.rfl ⟨rfl, rfl, rfl⟩ fun _ => ?_
    refine Gives.guard ?_ ⟨rfl, rfl, rfl⟩ fun _ => Gives.pure ⟨rfl, rfl, rfl⟩
    rw [ne_eq, ← UInt64.toNat_inj, Slice.toNat_len]
    rfl

theorem handleInstallSnapshot_numbers (roomy : n.Roomy) (args : InstallSnapshotArgs) :
    Gives Same (n.handleInstallSnapshot args) (n.numbers.handleInstallSnapshot args.numbers) := by
  refine (observeTerm_numbers roomy args.term).bind ?_
  rintro ⟨m, current⟩ ⟨same, roomy⟩
  unfold Raft.Node.handleInstallSnapshot
  rw [show args.numbers.term = args.term.toNat from rfl, ← same]
  refine Gives.guard Iff.rfl rfl fun _ => ?_
  refine (follow_numbers roomy args.leaderID).bind fun f ⟨follows, roomy⟩ => ?_
  rw [show args.numbers.leaderID = args.leaderID from rfl]
  dsimp only
  rw [← follows]
  obtain ⟨l, shown, -⟩ := roomy.log
  rw [shown.first, ok_bind]
  refine Gives.ite ?_ (fun _ => Gives.pure ?_) fun _ => ?_
  · rw [UInt64.le_iff_toNat_le, show f.numbers.log = l.numbers from shown.numbers]
    rfl
  · dsimp only [Same]
    rw [apply_ite numbers]
    refine ite_congr ?_ (fun _ => rfl) fun _ => rfl
    dsimp only [numbers]
    cases f.chunkTransfer <;>
      simp only [Option.map_none, Option.map_some, Option.any_none, Option.any_some, UInt64.le_iff_toNat_le]
    rfl
  refine Gives.ite Iff.rfl (fun _ => ?_) fun _ => ?_
  · refine (f.receiveSnapshotChunk_numbers args).bind ?_
    rintro ⟨g, outcome⟩ ⟨log, received, shape⟩
    generalize f.numbers.receiveSnapshotChunk args.numbers = result at received shape ⊢
    obtain ⟨_, _⟩ := result
    cases received
    cases shape
    cases outcome with
    | rejected | incomplete => exact Gives.pure rfl
    | complete data => exact installSnapshot_numbers (log ▸ shown) _
  · exact installSnapshot_numbers (n := { f with chunkTransfer := none }) shown _

end Node

def Call.numbers : Call → Raft.Call
  | .requestVote peer args => .requestVote peer args.numbers
  | .appendEntries peer args => .appendEntries peer args.numbers
  | .installSnapshot peer snap args _ => .installSnapshot peer snap.numbers args.numbers

def Call.reply (term : UInt64) (granted : Bool) : Call → Raft.Reply
  | .requestVote _ _ => .requestVote ⟨term.toNat, granted⟩
  | .appendEntries _ _ => .appendEntries ⟨term.toNat, granted⟩
  | .installSnapshot _ _ _ _ => .installSnapshot ⟨term.toNat, granted⟩

/-- The positions that a reply to the call may set stay below `2 ^ 64`. -/
def Call.Small : Call → Prop
  | .requestVote _ _ => True
  | .appendEntries _ args => args.prevLogIndex.toNat + args.entries.items.length + 1 < 2 ^ 64
  | .installSnapshot _ snap _ _ => snap.lastIncludedIndex.toNat + 1 < 2 ^ 64

/-- Nothing that the node counts is at its last value. -/
structure Node.Small (n : Node) : Prop where
  log : n.numbers.log.lastIndex + 1 < 2 ^ 64
  term : n.currentTerm.toNat + 1 < 2 ^ 64
  elections : n.electionElapsed.toInt + 1 < 2 ^ 63
  heartbeats : n.heartbeatElapsed.toInt + 1 < 2 ^ 63
  timer : -2 ^ 63 ≤ n.electionTickMax.toInt - n.electionTickMin.toInt ∧
    n.electionTickMax.toInt - n.electionTickMin.toInt < 2 ^ 63 - 1

namespace System

variable {fresh : Prop} {limit : Nat} {s : System}

/-- What an operation is to the node in numbers. -/
def operations (s : System) : Operation → List Raft.Operation
  | .handleRequestVote args => [.handleRequestVote args.numbers]
  | .handleAppendEntries args => [.handleAppendEntries args.numbers]
  | .handleInstallSnapshot args => [.handleInstallSnapshot args.numbers]
  | .tick => [.tick]
  | .propose command => [.propose command]
  | .reply call term granted => s.calls[call]?.toList.map fun pending =>
    .resume pending.numbers (pending.reply term granted)
  | .createSnapshot index data => [.createSnapshot index.toNat data.items]
  | .markApplied index => [.markApplied index.toNat]
  | .confirmSnapshotRestored lastIncludedIndex => [.confirmSnapshotRestored lastIncludedIndex.toNat]
  | .committedEntries _ => []
  | .readIndex => []

structure Small (s : System) (op : Operation) : Prop where
  node : s.node.Small
  calls : ∀ call ∈ s.calls, call.Small
  entries : ∀ args, op = .handleAppendEntries args →
    args.prevLogIndex.toNat + args.entries.items.length + 1 < 2 ^ 64

theorem answer_numbers {n : Node} (roomy : n.Roomy) {call : Call} (small : call.Small) (term : UInt64)
    (granted : Bool) :
    Gives Node.Same (answer n term granted call) (n.numbers.resume call.numbers (call.reply term granted)) := by
  cases call with
  | requestVote peer args =>
    exact fun r done => Node.sendRequestVoteReply_numbers roomy peer args.term ⟨term, granted⟩ r done
  | appendEntries peer args =>
    exact (Node.sendAppendEntriesReply_numbers roomy peer small ⟨term, granted⟩).bind fun r same => Gives.pure same
  | installSnapshot peer snap args stop =>
    exact fun r done => Node.sendInstallSnapshotReply_numbers roomy peer small args stop ⟨term, granted⟩ r done

theorem Kept.roomy (kept : s.Kept fresh limit) (small : s.node.Small) : s.node.Roomy := by
  obtain ⟨l, shown, -⟩ := kept.sound.log
  have room := small.log
  rw [show s.node.numbers.log = l.numbers from shown.numbers, l.numbers_end] at room
  exact ⟨⟨l, shown, room⟩, small.timer⟩

/-- One step: the words stand for what the numbers become. -/
theorem Kept.step_numbers (kept : s.Kept fresh limit) (op : Operation) (small : s.Small op) :
    Gives (fun next x => next.node.numbers = x) (s.step op) (s.node.numbers.performAll (s.operations op)) := by
  have roomy := kept.roomy small.node
  cases op with
  | handleRequestVote args => exact (Node.handleRequestVote_numbers roomy args).bind fun r same => Gives.pure same
  | handleAppendEntries args =>
    exact (Node.handleAppendEntries_numbers roomy (small.entries args rfl)).bind fun r same => Gives.pure same
  | handleInstallSnapshot args =>
    exact (Node.handleInstallSnapshot_numbers roomy args).bind fun r same => Gives.pure same
  | tick =>
    exact (Node.tick_numbers roomy small.node.term small.node.elections small.node.heartbeats).bind fun r same =>
      Gives.pure same
  | propose command => exact (Node.propose_numbers roomy command).bind fun r same => Gives.pure same
  | reply call term granted =>
    simp only [System.step, operations]
    cases found : s.calls[call]? with
    | none => exact Gives.pure rfl
    | some pending =>
      exact (answer_numbers roomy (small.calls pending (List.mem_of_getElem? found)) term granted).bind fun r same =>
        Gives.pure same
  | createSnapshot index data => exact (Node.createSnapshot_numbers roomy index data).bind fun r same => Gives.pure same
  | markApplied index => exact Gives.pure (s.node.markApplied_numbers index)
  | confirmSnapshotRestored lastIncludedIndex =>
    exact Gives.pure (s.node.confirmSnapshotRestored_numbers lastIncludedIndex)
  | committedEntries start => exact Gives.skip fun _ => Gives.pure rfl
  | readIndex =>
    refine Gives.skip fun outcome => ?_
    cases outcome <;> exact Gives.pure rfl

/-- No operation of the run meets a counter at its last value. -/
def SmallRun (s : System) : List Operation → Prop
  | [] => True
  | op :: more => s.Small op ∧ ∀ next, s.step op = .ok next → next.SmallRun more

/-- What the node in numbers does while the run lasts. -/
def operationsOf (s : System) : List Operation → List Raft.Operation
  | [] => []
  | op :: more =>
    s.operations op ++ match s.step op with
      | .ok next => next.operationsOf more
      | .error _ => []

theorem Kept.run_numbers (kept : s.Kept True limit) (ops : List Operation) (small : s.SmallRun ops) :
    Gives (fun final x => final.node.numbers = x) (s.run ops) (s.node.numbers.performAll (s.operationsOf ops)) := by
  induction ops generalizing s limit with
  | nil => exact Gives.pure rfl
  | cons op ops ih =>
    intro final done
    have simulated := kept.step_numbers op small.1
    have keeps := kept.step op fun _ _ => trivial
    have later := small.2
    simp only [System.run] at done
    simp only [operationsOf, Raft.Node.performAll, List.foldl_append] at *
    cases moved : s.step op with
    | error fault =>
      rw [moved] at done
      cases done
    | ok next =>
      rw [moved] at done keeps
      rw [← simulated next moved]
      exact ih keeps.1 (later next moved) final done

end System

end Machine

end ForgeDB.Raft.Words
