import ForgeDB.Raft.Payload

/-!
A node whose saves succeed. What its handlers do is then determined by the call alone, once the
caller's term is not behind.
-/

namespace ForgeDB.Raft

namespace Persister

def Healthy (p : Persister) : Prop := true ∉ p.faults

theorem Healthy.tail {p : Persister} (healthy : p.Healthy) : true ∉ p.faults.tail :=
  fun failing => healthy (List.mem_of_mem_tail failing)

theorem Healthy.saveState {p : Persister} (healthy : p.Healthy) (state : PersistentState) :
    ∃ later, p.saveState state = (⟨some state, p.snapshot, later⟩, true) ∧ true ∉ later := by
  refine ⟨p.faults.tail, ?_, healthy.tail⟩
  unfold Persister.saveState
  split
  · rename_i later planned
    exact absurd (planned ▸ List.mem_cons_self) healthy
  · rfl

theorem Healthy.saveSnapshot {p : Persister} (healthy : p.Healthy) (snap : Snapshot) :
    ∃ later, p.saveSnapshot snap = (⟨p.state, some snap, later⟩, true) ∧ true ∉ later := by
  refine ⟨p.faults.tail, ?_, healthy.tail⟩
  unfold Persister.saveSnapshot
  split
  · rename_i later planned
    exact absurd (planned ▸ List.mem_cons_self) healthy
  · rfl

end Persister

namespace Node

structure Following (n : Node) (term : Nat) (after : Node) : Prop where
  term : after.currentTerm = term
  healthy : after.persister.Healthy
  kept : after.kept = n.kept
  commit : after.commitIndex = n.commitIndex

theorem persist_healthy {n : Node} (healthy : n.persister.Healthy) :
    ∃ later, n.persist = ({ n with persister :=
      ⟨some ⟨n.currentTerm, n.votedFor, n.log.rest⟩, n.persister.snapshot, later⟩ }, true) ∧ true ∉ later := by
  obtain ⟨later, saved, rest⟩ := healthy.saveState ⟨n.currentTerm, n.votedFor, n.log.rest⟩
  exact ⟨later, by simp only [persist, saved], rest⟩

theorem maybeAdvanceCommitIndex_persister (n : Node) : n.maybeAdvanceCommitIndex.persister = n.persister := by
  rcases n.maybeAdvanceCommitIndexFrom_cases n.log.lastIndex with same | ⟨index, _, _, _, same⟩
  · rw [maybeAdvanceCommitIndex, same]
  · rw [maybeAdvanceCommitIndex, same]
    rfl

theorem resetElectionTimer_persister (n : Node) : n.resetElectionTimer.persister = n.persister := by
  simp only [resetElectionTimer]
  split <;> rfl

theorem propose_healthy {n : Node} (command : Command) (leading : n.role = .leader) (healthy : n.persister.Healthy) :
    (n.propose command).1.role = .leader ∧ (n.propose command).1.persister.Healthy ∧
      (n.propose command).1.nextIndex = n.nextIndex ∧ (n.propose command).1.peers = n.peers ∧
      (n.propose command).1.log = (n.log.append ⟨0, n.currentTerm, command⟩).1 := by
  obtain ⟨later, saved, rest⟩ :=
    @persist_healthy { n with log := (n.log.append ⟨0, n.currentTerm, command⟩).1 } healthy
  rw [propose, if_neg (not_not_intro leading)]
  simp only [saved, if_true, broadcastAppendEntries]
  generalize shape : ({ n with
    log := (n.log.append ⟨0, n.currentTerm, command⟩).1
    persister := ⟨some ⟨n.currentTerm, n.votedFor, (n.log.append ⟨0, n.currentTerm, command⟩).1.rest⟩,
      n.persister.snapshot, later⟩ } : Node) = m
  obtain ⟨role, _, log, _, next, _⟩ := m.maybeAdvanceCommitIndex_frame
  have peers := congrArg Kept.peers m.maybeAdvanceCommitIndex_kept
  rw [role, maybeAdvanceCommitIndex_persister, log, next]
  subst shape
  exact ⟨leading, rest, rfl, peers, rfl⟩

theorem becomeFollower_healthy {n : Node} (term : Nat) (healthy : n.persister.Healthy) :
    (n.becomeFollower term).2 = true ∧ Following n term (n.becomeFollower term).1 := by
  have kept := n.becomeFollower_kept term
  have core := n.becomeFollower_core term
  obtain ⟨later, saved, rest⟩ :=
    @persist_healthy { n with currentTerm := term, votedFor := "" } healthy
  simp only [becomeFollower, saved, if_true] at kept core ⊢
  rcases core with ⟨failed, _⟩ | ⟨_, core⟩
  · cases failed
  refine ⟨trivial, congrArg Core.currentTerm core, ?_, kept, congrArg Core.commitIndex core⟩
  rw [resetElectionTimer_persister]
  exact rest

theorem observeTerm_healthy {n : Node} {term : Nat} (healthy : n.persister.Healthy) (current : n.currentTerm ≤ term) :
    (n.observeTerm term).2 = true ∧ Following n term (n.observeTerm term).1 := by
  simp only [observeTerm]
  split
  · obtain ⟨accepted, following⟩ := n.becomeFollower_healthy term healthy
    rw [accepted, following.term]
    exact ⟨by simp only [lt_irrefl, decide_false, Bool.not_false, Bool.and_true], following⟩
  · have same : n.currentTerm = term := by omega
    exact ⟨by simp only [same, lt_irrefl, decide_false, Bool.not_false, Bool.and_true], same, healthy, rfl, rfl⟩

theorem Following.follow {n m : Node} {term : Nat} (following : Following n term m) (leaderID : String) :
    Following n term (m.follow leaderID) where
  term := (congrArg Core.currentTerm (m.follow_core leaderID)).trans following.term
  healthy := by
    rw [Node.follow, resetElectionTimer_persister]
    exact following.healthy
  kept := (m.follow_kept leaderID).trans following.kept
  commit := (congrArg Core.commitIndex (m.follow_core leaderID)).trans following.commit

theorem raised_term (n : Node) (raise : Prop) [Decidable raise] (commit : Nat) :
    (if raise then { n with commitIndex := commit }.notifyCommit else n).currentTerm = n.currentTerm := by
  split <;> rfl

theorem handleAppendEntries_healthy {n : Node} {args : AppendEntriesArgs} (healthy : n.persister.Healthy)
    (current : n.currentTerm ≤ args.term) :
    (n.handleAppendEntries args).2 = ⟨args.term, decide (n.log.termAt args.prevLogIndex = some args.prevLogTerm)⟩ ∧
      (n.log.termAt args.prevLogIndex ≠ some args.prevLogTerm →
        Following n args.term (n.handleAppendEntries args).1) := by
  obtain ⟨accepted, observed⟩ := observeTerm_healthy healthy current
  have following := observed.follow args.leaderID
  simp only [handleAppendEntries, accepted, Bool.not_true, Bool.false_eq_true, if_false]
  generalize (n.observeTerm args.term).1.follow args.leaderID = f at following ⊢
  have log : f.log = n.log := congrArg Kept.log following.kept
  rw [log]
  by_cases found : n.log.termAt args.prevLogIndex = some args.prevLogTerm
  · simp only [found, ne_eq, not_true_eq_false, if_false, decide_true]
    refine ⟨?_, False.elim⟩
    rcases n.log.appendAfter args.prevLogIndex args.entries with ⟨grown, changed⟩
    cases changed with
    | false =>
      simp only [Bool.false_eq_true, if_false, Bool.not_true]
      exact congrArg (AppendEntriesReply.mk · true) ((raised_term _ _ _).trans following.term)
    | true =>
      obtain ⟨later, saved, _⟩ := @persist_healthy { f with log := grown } following.healthy
      simp only [if_true, saved, Bool.not_true, Bool.false_eq_true, if_false]
      exact congrArg (AppendEntriesReply.mk · true) ((raised_term _ _ _).trans following.term)
  · simp only [ne_eq, found, not_false_eq_true, if_true, decide_false, forall_true_left]
    exact ⟨congrArg (AppendEntriesReply.mk · false) following.term, following⟩

theorem receiveSnapshotChunk_eq {n f : Node} (same : f.chunkTransfer = n.chunkTransfer) (args : InstallSnapshotArgs) :
    f.receiveSnapshotChunk args =
      ({ f with chunkTransfer := (n.receiveSnapshotChunk args).1.chunkTransfer }, (n.receiveSnapshotChunk args).2) := by
  have target : f.chunkTarget args = n.chunkTarget args := by simp only [chunkTarget, same]
  unfold receiveSnapshotChunk
  rw [target]
  split
  · rw [← same]
  split
  · rfl
  split
  · rfl
  split
  · rfl
  dsimp only
  split
  · rfl
  split <;> rfl

theorem installSnapshot_healthy {n : Node} (healthy : n.persister.Healthy) (snap : Snapshot) :
    (n.installSnapshot snap).2 = ⟨n.currentTerm, true⟩ ∧ (n.installSnapshot snap).1.currentTerm = n.currentTerm ∧
      (n.installSnapshot snap).1.persister.Healthy ∧
      (n.installSnapshot snap).1.log = n.log.installSnapshotBoundary snap.lastIncludedIndex snap.lastIncludedTerm ∧
      (n.installSnapshot snap).1.snapshotData = snap.data := by
  obtain ⟨later, saved, rest⟩ := healthy.saveSnapshot snap
  simp only [installSnapshot, saved, Bool.not_true, Bool.false_eq_true, if_false]
  generalize n.log.installSnapshotBoundary snap.lastIncludedIndex snap.lastIncludedTerm = log
  obtain ⟨last, done, more⟩ :=
    @persist_healthy { n with log := log, persister := ⟨n.persister.state, some snap, later⟩ } rest
  simp only [done, Bool.not_true, Bool.false_eq_true, if_false]
  split <;> exact ⟨rfl, rfl, more, rfl, rfl⟩

theorem handleInstallSnapshot_behind {n : Node} (args : InstallSnapshotArgs) (healthy : n.persister.Healthy)
    (current : n.currentTerm ≤ args.term) (behind : args.lastIncludedIndex ≤ n.log.sentinel.index) :
    (n.handleInstallSnapshot args).2 = ⟨args.term, true⟩ ∧ (n.handleInstallSnapshot args).1.currentTerm = args.term ∧
      (n.handleInstallSnapshot args).1.persister.Healthy ∧ (n.handleInstallSnapshot args).1.log = n.log ∧
      (n.handleInstallSnapshot args).1.snapshotData = n.snapshotData := by
  obtain ⟨accepted, observed⟩ := observeTerm_healthy healthy current
  have following := observed.follow args.leaderID
  simp only [handleInstallSnapshot, accepted, Bool.not_true, Bool.false_eq_true, if_false]
  generalize (n.observeTerm args.term).1.follow args.leaderID = f at following ⊢
  have log : f.log = n.log := congrArg Kept.log following.kept
  rw [if_pos (log ▸ behind)]
  refine ⟨congrArg (InstallSnapshotReply.mk · true) following.term, ?_⟩
  have payload : f.snapshotData = n.snapshotData := congrArg Kept.snapshotData following.kept
  split <;> exact ⟨following.term, following.healthy, log, payload⟩

theorem handleInstallSnapshot_ahead {n : Node} (args : InstallSnapshotArgs) (healthy : n.persister.Healthy)
    (current : n.currentTerm ≤ args.term) (ahead : n.log.sentinel.index < args.lastIncludedIndex)
    (chunked : args.chunked = true) :
    (n.handleInstallSnapshot args).1.currentTerm = args.term ∧ (n.handleInstallSnapshot args).1.persister.Healthy ∧
      (n.handleInstallSnapshot args).2.term = args.term ∧
      match n.receiveSnapshotChunk args with
      | (m, .rejected) => (n.handleInstallSnapshot args).2.success = false ∧
        (n.handleInstallSnapshot args).1.kept = { n.kept with chunkTransfer := m.chunkTransfer }
      | (m, .incomplete) => (n.handleInstallSnapshot args).2.success = true ∧
        (n.handleInstallSnapshot args).1.kept = { n.kept with chunkTransfer := m.chunkTransfer }
      | (_, .complete data) => (n.handleInstallSnapshot args).2.success = true ∧
        (n.handleInstallSnapshot args).1.snapshotData = data ∧ (n.handleInstallSnapshot args).1.log =
          n.log.installSnapshotBoundary args.lastIncludedIndex args.lastIncludedTerm := by
  obtain ⟨accepted, observed⟩ := observeTerm_healthy healthy current
  have following := observed.follow args.leaderID
  simp only [handleInstallSnapshot, accepted, Bool.not_true, Bool.false_eq_true, if_false]
  generalize (n.observeTerm args.term).1.follow args.leaderID = f at following ⊢
  have log : f.log = n.log := congrArg Kept.log following.kept
  have transfer : f.chunkTransfer = n.chunkTransfer := congrArg Kept.chunkTransfer following.kept
  rw [if_neg (by rw [log]; omega), if_pos chunked, receiveSnapshotChunk_eq transfer]
  rcases n.receiveSnapshotChunk args with ⟨m, outcome⟩
  have kept : { f with chunkTransfer := m.chunkTransfer }.kept = { n.kept with chunkTransfer := m.chunkTransfer } := by
    rw [← following.kept]
    rfl
  cases outcome with
  | rejected | incomplete => exact ⟨following.term, following.healthy, following.term, rfl, kept⟩
  | complete data =>
    obtain ⟨reply, term, healthy, moved, payload⟩ :=
      @installSnapshot_healthy { f with chunkTransfer := m.chunkTransfer } following.healthy
        ⟨args.lastIncludedIndex, args.lastIncludedTerm, data⟩
    refine ⟨term.trans following.term, healthy, ?_, ?_, payload, ?_⟩
    · rw [reply]
      exact following.term
    · rw [reply]
    · rw [moved, ← log]

end Node

end ForgeDB.Raft
