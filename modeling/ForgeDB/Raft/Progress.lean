import ForgeDB.Raft.Safety

/-!
What a node never takes back while it runs: its term and its commit index only rise. A restart
keeps the term and forgets the commit index.
-/

namespace ForgeDB.Raft

/-- One execution under the lock of the node called `node`, as part of an action, with the packets it
may be given. -/
inductive Node.Executes (network : List Packet) (node : String) : Action → Node → Node → Prop where
  | tick (n : Node) : Executes network node (.tick node) n n.tick.1
  | propose (n : Node) (command : Command) : Executes network node (.propose node command) n (n.propose command).1
  | createSnapshot (n : Node) (index : Nat) (data : List UInt8) :
    Executes network node (.createSnapshot node index data) n (n.createSnapshot index data).1
  | confirmSnapshotRestored (n : Node) (index : Nat) :
    Executes network node (.confirmSnapshotRestored node index) n (n.confirmSnapshotRestored index).1
  | markApplied (n : Node) (index : Nat) : Executes network node (.markApplied node index) n (n.markApplied index).1
  | serve (n : Node) (slot : Nat) {id : Nat} {src : String} {call : Call}
    (sent : Packet.request id src call ∈ network) (callee : call.peer = node) :
    Executes network node (.deliver slot) n (n.serve call).1
  | resume (n : Node) (slot : Nat) {id : Nat} {call : Call} {reply : Reply}
    (sent : Packet.reply id node call reply ∈ network) : Executes network node (.deliver slot) n (n.resume call reply).1
  | fault (n : Node) (outcomes : List Bool) :
    Executes network node (.fault node outcomes) n { n with persister := { n.persister with faults := outcomes } }

structure Onward (n after : Node) : Prop where
  term : n.currentTerm ≤ after.currentTerm
  commit : n.commitIndex ≤ after.commitIndex

namespace Onward

theorem refl (n : Node) : Onward n n := ⟨Nat.le_refl _, Nat.le_refl _⟩

theorem trans {first second third : Node} (left : Onward first second) (right : Onward second third) :
    Onward first third :=
  ⟨left.term.trans right.term, left.commit.trans right.commit⟩

theorem of_core {n after : Node} {c : Core} (same : after.core = c) (term : n.currentTerm ≤ c.currentTerm)
    (commit : n.commitIndex ≤ c.commitIndex) : Onward n after :=
  ⟨term.trans (congrArg Core.currentTerm same).ge, commit.trans (congrArg Core.commitIndex same).ge⟩

theorem from_same {n m after : Node} (onward : Onward m after) (term : n.currentTerm = m.currentTerm)
    (commit : n.commitIndex = m.commitIndex) : Onward n after :=
  ⟨term.le.trans onward.term, commit.le.trans onward.commit⟩

theorem of_same {n after : Node} (same : after.core = n.core) : Onward n after :=
  of_core same (Nat.le_refl _) (Nat.le_refl _)

end Onward

namespace Node

theorem becomeFollower_onward {n : Node} {term : Nat} (newer : n.currentTerm < term) :
    Onward n (n.becomeFollower term).1 := by
  rcases n.becomeFollower_core term with ⟨_, same⟩ | ⟨_, same⟩
  · exact Onward.of_same same
  · exact Onward.of_core same newer.le (Nat.le_refl _)

theorem observeTerm_onward (n : Node) (term : Nat) : Onward n (n.observeTerm term).1 := by
  rcases (n.observeTerm_core term).1 with same | ⟨newer, same⟩
  · exact Onward.of_same same
  · exact Onward.of_core same newer.le (Nat.le_refl _)

theorem maybeAdvanceCommitIndex_onward (n : Node) : Onward n n.maybeAdvanceCommitIndex := by
  rcases n.maybeAdvanceCommitIndexFrom_cases n.log.lastIndex with same | ⟨index, above, _, _, same⟩
  · rw [maybeAdvanceCommitIndex, same]
    exact Onward.refl n
  · rw [maybeAdvanceCommitIndex, same]
    exact ⟨Nat.le_refl _, above.le⟩

theorem broadcastAppendEntries_onward (n : Node) : Onward n n.broadcastAppendEntries.1 :=
  maybeAdvanceCommitIndex_onward n

theorem becomeLeader_onward (n : Node) : Onward n n.becomeLeader.1 := by
  unfold becomeLeader
  exact (broadcastAppendEntries_onward _).from_same rfl rfl

theorem startElection_onward (n : Node) : Onward n n.startElection.1 := by
  rcases persist_cases { n with currentTerm := n.currentTerm + 1, votedFor := n.id } with
    ⟨later, same⟩ | ⟨later, same⟩
  · simp only [startElection, same, Bool.false_eq_true, if_false]
    exact ⟨Nat.le_refl _, Nat.le_refl _⟩
  · simp only [startElection, same, if_true]
    generalize shape : resetElectionTimer _ = m
    have core : m.core = n.core.stand := by
      rw [← shape, resetElectionTimer_core]
      rfl
    have stood : Onward n m := Onward.of_core core (Nat.le_succ _) (Nat.le_refl _)
    split
    · exact stood.trans m.becomeLeader_onward
    · exact stood

theorem tick_onward (n : Node) : Onward n n.tick.1 := by
  unfold tick
  split
  · dsimp only
    split
    · exact (broadcastAppendEntries_onward _).from_same rfl rfl
    · exact ⟨Nat.le_refl _, Nat.le_refl _⟩
  · dsimp only
    split
    · exact (startElection_onward _).from_same rfl rfl
    · exact ⟨Nat.le_refl _, Nat.le_refl _⟩

theorem propose_onward (n : Node) (command : Command) : Onward n (n.propose command).1 := by
  unfold propose
  split
  · exact Onward.refl n
  · rcases persist_cases { n with log := (n.log.append ⟨0, n.currentTerm, command⟩).1 } with
      ⟨later, same⟩ | ⟨later, same⟩
    · simp only [same, Bool.false_eq_true, if_false]
      exact ⟨Nat.le_refl _, Nat.le_refl _⟩
    · simp only [same, if_true]
      exact (broadcastAppendEntries_onward _).from_same rfl rfl

theorem createSnapshot_onward (n : Node) (index : Nat) (data : List UInt8) :
    Onward n (n.createSnapshot index data).1 := by
  rcases n.createSnapshot_core index data with same | ⟨_, _, _, _, same | same⟩ <;>
    exact Onward.of_core same (Nat.le_refl _) (Nat.le_refl _)

theorem installSnapshot_onward (n : Node) (snap : Snapshot) : Onward n (n.installSnapshot snap).1 := by
  rcases n.installSnapshot_core snap with ⟨_, same | same⟩ | same
  · exact Onward.of_same same
  · exact Onward.of_core same (Nat.le_refl _) (Nat.le_refl _)
  · exact Onward.of_core same (Nat.le_refl _) (Nat.le_max_left _ _)

theorem handleInstallSnapshot_onward (n : Node) (args : InstallSnapshotArgs) :
    Onward n (n.handleInstallSnapshot args).1 := by
  have onward := n.observeTerm_onward args.term
  have followed : ∀ m f, n.observeTerm args.term = (m, true) → m.follow args.leaderID = f → Onward n f := by
    rintro m f observed rfl
    rw [observed] at onward
    exact onward.trans (Onward.of_core (m.follow_core args.leaderID) (Nat.le_refl _) (Nat.le_refl _))
  have path := n.handleInstallSnapshot_path args
  generalize n.handleInstallSnapshot args = result at path ⊢
  cases path with
  | refused observed =>
    rw [observed] at onward
    exact onward
  | covered observed follows | received observed follows =>
    exact (followed _ _ observed follows).trans (Onward.of_same rfl)
  | installed observed follows =>
    exact ((followed _ _ observed follows).trans (Onward.of_same rfl)).trans (installSnapshot_onward _ _)

theorem serve_onward (n : Node) (call : Call) : Onward n (n.serve call).1 := by
  cases call with
  | requestVote peer args =>
    have observed := n.observeTerm_onward args.term
    rcases n.handleRequestVote_core args with ⟨_, same⟩ | ⟨_, _, _, same⟩
    · exact observed.trans (Onward.of_same same)
    · exact observed.trans (Onward.of_core same (Nat.le_refl _) (Nat.le_refl _))
  | appendEntries peer args =>
    have observed := n.observeTerm_onward args.term
    rcases n.handleAppendEntries_core args with ⟨_, same | same⟩ | ⟨_, _, same⟩
    · exact observed.trans (Onward.of_same same)
    · exact observed.trans (Onward.of_core same (Nat.le_refl _) (Nat.le_refl _))
    · exact observed.trans (Onward.of_core same (Nat.le_refl _) (Nat.le_max_left _ _))
  | installSnapshot peer snap args => exact n.handleInstallSnapshot_onward args

theorem noteProgress_onward (n : Node) (peer : String) (position : Nat) : Onward n (n.noteProgress peer position) := by
  unfold noteProgress
  dsimp only
  split <;> split <;> exact ⟨Nat.le_refl _, Nat.le_refl _⟩

theorem resume_onward (n : Node) (call : Call) (reply : Reply) : Onward n (n.resume call reply).1 := by
  have resumes := n.resume_resumes call reply
  generalize (n.resume call reply).1 = after at resumes ⊢
  cases resumes with
  | same => exact Onward.refl n
  | steppedDown newer => exact becomeFollower_onward newer
  | counted => exact ⟨Nat.le_refl _, Nat.le_refl _⟩
  | elected => exact (becomeLeader_onward _).from_same rfl rfl
  | noted peer position => exact (n.noteProgress_onward peer position).trans (maybeAdvanceCommitIndex_onward _)
  | backedOff => exact ⟨Nat.le_refl _, Nat.le_refl _⟩

theorem Executes.onward {network : List Packet} {node : String} {action : Action} {n after : Node}
    (moved : Executes network node action n after) : Onward n after := by
  cases moved with
  | tick => exact n.tick_onward
  | propose _ command => exact n.propose_onward command
  | createSnapshot _ index data => exact n.createSnapshot_onward index data
  | confirmSnapshotRestored _ index => exact Onward.of_same (n.confirmSnapshotRestored_core index)
  | markApplied _ index => exact Onward.of_same (n.markApplied_core index)
  | serve => exact n.serve_onward _
  | resume => exact n.resume_onward _ _
  | fault _ outcomes => exact ⟨Nat.le_refl _, Nat.le_refl _⟩

end Node

structure Kept where
  id : String
  peers : List String
  log : Log
  lastApplied : Nat
  appliedCh : Bool
  pendingSnapshot : Option Snapshot
  snapshotData : List UInt8
  snapshotChunkSize : Nat
  chunkTransfer : Option InProgressSnapshotTransfer
  snapshot : Option Snapshot

namespace Node

def kept (n : Node) : Kept :=
  { id := n.id
    peers := n.peers
    log := n.log
    lastApplied := n.lastApplied
    appliedCh := n.appliedCh
    pendingSnapshot := n.pendingSnapshot
    snapshotData := n.snapshotData
    snapshotChunkSize := n.snapshotChunkSize
    chunkTransfer := n.chunkTransfer
    snapshot := n.persister.snapshot }

@[simp] theorem resetElectionTimer_kept (n : Node) : n.resetElectionTimer.kept = n.kept := by
  simp only [resetElectionTimer]
  split <;> rfl

theorem becomeFollower_kept (n : Node) (term : Nat) : (n.becomeFollower term).1.kept = n.kept := by
  rcases persist_cases { n with currentTerm := term, votedFor := "" } with ⟨later, same⟩ | ⟨later, same⟩
  · simp only [becomeFollower, same]
    rfl
  · simp only [becomeFollower, same, if_true, resetElectionTimer_kept]
    rfl

theorem observeTerm_kept (n : Node) (term : Nat) : (n.observeTerm term).1.kept = n.kept := by
  simp only [observeTerm]
  split
  · exact n.becomeFollower_kept term
  · rfl

theorem follow_kept (n : Node) (leaderID : String) : (n.follow leaderID).kept = n.kept := by
  rw [follow, resetElectionTimer_kept]
  rfl

theorem maybeAdvanceCommitIndex_kept (n : Node) : n.maybeAdvanceCommitIndex.kept = n.kept := by
  rcases n.maybeAdvanceCommitIndexFrom_cases n.log.lastIndex with same | ⟨index, _, _, _, same⟩
  · rw [maybeAdvanceCommitIndex, same]
  · rw [maybeAdvanceCommitIndex, same]
    rfl

theorem becomeLeader_kept (n : Node) : n.becomeLeader.1.kept = n.kept :=
  maybeAdvanceCommitIndex_kept _

theorem startElection_kept (n : Node) : n.startElection.1.kept = n.kept := by
  rcases persist_cases { n with currentTerm := n.currentTerm + 1, votedFor := n.id } with
    ⟨later, same⟩ | ⟨later, same⟩
  · simp only [startElection, same, Bool.false_eq_true, if_false]
    rfl
  · simp only [startElection, same, if_true]
    generalize shape : resetElectionTimer _ = m
    have stood : m.kept = n.kept := by
      rw [← shape, resetElectionTimer_kept]
      rfl
    split
    · rw [becomeLeader_kept, stood]
    · exact stood

theorem tick_kept (n : Node) : n.tick.1.kept = n.kept := by
  unfold tick
  split
  · dsimp only
    split
    · exact maybeAdvanceCommitIndex_kept _
    · rfl
  · dsimp only
    split
    · exact startElection_kept _
    · rfl

theorem handleRequestVote_kept (n : Node) (args : RequestVoteArgs) :
    (n.handleRequestVote args).1.kept = n.kept := by
  have observed := n.observeTerm_kept args.term
  rcases shape : n.observeTerm args.term with ⟨m, accepted⟩
  rw [shape] at observed
  simp only [handleRequestVote, shape]
  split
  · exact observed
  split
  · exact observed
  rcases persist_cases { m with votedFor := args.candidateID } with ⟨later, same⟩ | ⟨later, same⟩
  · simp only [same, Bool.false_eq_true, if_false]
    exact observed
  · simp only [same, if_true, resetElectionTimer_kept]
    exact observed

theorem noteProgress_frame (n : Node) (peer : String) (position : Nat) :
    (n.noteProgress peer position).role = n.role ∧ (n.noteProgress peer position).currentTerm = n.currentTerm ∧
      (n.noteProgress peer position).matchIndex =
        Function.update n.matchIndex peer (max (n.matchIndex peer) position) := by
  unfold noteProgress
  dsimp only
  split
  · rename_i behind
    rw [Nat.max_eq_right behind.le]
    split <;> exact ⟨rfl, rfl, rfl⟩
  · rename_i ahead
    rw [Nat.max_eq_left (Nat.le_of_not_lt ahead), Function.update_eq_self]
    split <;> exact ⟨rfl, rfl, rfl⟩

theorem noteProgress_kept (n : Node) (peer : String) (position : Nat) :
    (n.noteProgress peer position).kept = n.kept := by
  unfold noteProgress
  dsimp only
  split <;> split <;> rfl

theorem resume_kept (n : Node) (call : Call) (reply : Reply) : (n.resume call reply).1.kept = n.kept := by
  have resumes := n.resume_resumes call reply
  generalize (n.resume call reply).1 = after at resumes ⊢
  cases resumes with
  | same => rfl
  | steppedDown => exact n.becomeFollower_kept _
  | counted => rfl
  | elected => exact becomeLeader_kept _
  | noted peer position => exact (maybeAdvanceCommitIndex_kept _).trans (n.noteProgress_kept peer position)
  | backedOff => rfl

theorem follow_seen {n m f : Node} {term : Nat} {leaderID : String} (observed : n.observeTerm term = (m, true))
    (follows : m.follow leaderID = f) : f.kept = n.kept ∧ f.currentTerm = term := by
  have kept := n.observeTerm_kept term
  have current := (n.observeTerm_core term).2
  rw [observed] at kept current
  subst follows
  exact ⟨(m.follow_kept leaderID).trans kept,
    (congrArg Core.currentTerm (m.follow_core leaderID)).trans (current rfl)⟩

theorem maybeAdvanceCommitIndex_frame (n : Node) :
    n.maybeAdvanceCommitIndex.role = n.role ∧ n.maybeAdvanceCommitIndex.currentTerm = n.currentTerm ∧
      n.maybeAdvanceCommitIndex.log = n.log ∧ n.maybeAdvanceCommitIndex.snapshotData = n.snapshotData ∧
      n.maybeAdvanceCommitIndex.nextIndex = n.nextIndex ∧ n.maybeAdvanceCommitIndex.matchIndex = n.matchIndex := by
  rcases n.maybeAdvanceCommitIndexFrom_cases n.log.lastIndex with same | ⟨index, _, _, _, same⟩
  · rw [maybeAdvanceCommitIndex, same]
    exact ⟨rfl, rfl, rfl, rfl, rfl, rfl⟩
  · rw [maybeAdvanceCommitIndex, same]
    exact ⟨rfl, rfl, rfl, rfl, rfl, rfl⟩

theorem propose_cases (n : Node) (command : Command) :
    (∃ error, (n.propose command).2.1 = .error error ∧ (n.propose command).1.kept = n.kept) ∨
      n.role = .leader ∧ (n.propose command).2.1 = .ok (n.log.lastIndex + 1, n.currentTerm) ∧
        (n.propose command).1.role = n.role ∧ (n.propose command).1.currentTerm = n.currentTerm ∧
        (n.propose command).1.kept = { n.kept with log := (n.log.append ⟨0, n.currentTerm, command⟩).1 } := by
  unfold propose
  split
  · exact Or.inl ⟨_, rfl, rfl⟩
  · rename_i leading
    simp only [ne_eq, not_not] at leading
    rcases persist_cases { n with log := (n.log.append ⟨0, n.currentTerm, command⟩).1 } with
      ⟨later, same⟩ | ⟨later, same⟩
    · simp only [same, Bool.false_eq_true, if_false]
      exact Or.inl ⟨_, rfl, rfl⟩
    · simp only [same, if_true, broadcastAppendEntries]
      obtain ⟨role, current, _⟩ := maybeAdvanceCommitIndex_frame { n with
        log := (n.log.append ⟨0, n.currentTerm, command⟩).1
        persister := ⟨some ⟨n.currentTerm, n.votedFor, (n.log.append ⟨0, n.currentTerm, command⟩).1.rest⟩,
          n.persister.snapshot, later⟩ }
      refine Or.inr ⟨leading, ?_, role, current, maybeAdvanceCommitIndex_kept _⟩
      rw [current, Log.append, Log.lastIndex_eq]
      simp only [Log.entries, List.length_cons, Nat.add_assoc]

theorem propose_kept (n : Node) (command : Command) :
    (n.propose command).1.kept = n.kept ∨ n.role = .leader ∧
      (n.propose command).1.kept = { n.kept with log := (n.log.append ⟨0, n.currentTerm, command⟩).1 } := by
  rcases n.propose_cases command with ⟨_, _, kept⟩ | ⟨leading, _, _, _, kept⟩
  · exact Or.inl kept
  · exact Or.inr ⟨leading, kept⟩

end Node

namespace Cluster

theorem step_nodes {c after : Cluster} {action : Action} (taken : c.step action = some after) :
    after.members = c.members ∧ ∀ node, after.nodes node = c.nodes node ∨
      Node.Executes c.network node action (c.nodes node) (after.nodes node) ∨
      ∃ opts : Options, action = .restart node opts ∧
        newNode { opts with id := node, peers := (c.nodes node).peers, persister := (c.nodes node).persister } =
          .ok (after.nodes node) := by
  have single : ∀ (target : String) (n : Node), Node.Executes c.network target action (c.nodes target) n → ∀ node,
      Function.update c.nodes target n node = c.nodes node ∨
        Node.Executes c.network node action (c.nodes node) (Function.update c.nodes target n node) := by
    intro target n executes node
    by_cases same : node = target
    · subst same
      rw [Function.update_self]
      exact Or.inr executes
    · rw [Function.update_of_ne same]
      exact Or.inl rfl
  have execution : ∀ (target : String) (n : Node), Node.Executes c.network target action (c.nodes target) n →
      after.members = c.members → after.nodes = Function.update c.nodes target n →
      after.members = c.members ∧ ∀ node, after.nodes node = c.nodes node ∨
        Node.Executes c.network node action (c.nodes node) (after.nodes node) ∨
        ∃ opts : Options, action = .restart node opts ∧
          newNode { opts with id := node, peers := (c.nodes node).peers, persister := (c.nodes node).persister } =
            .ok (after.nodes node) := by
    intro target n executes members nodes
    refine ⟨members, fun node => ?_⟩
    rw [nodes]
    rcases single target n executes node with still | moved
    · exact Or.inl still
    · exact Or.inr (Or.inl moved)
  cases step_taken taken with
  | tick known => exact execution _ _ (.tick _) rfl rfl
  | propose known => exact execution _ _ (.propose _ _) rfl rfl
  | createSnapshot known => exact execution _ _ (.createSnapshot _ _ _) rfl rfl
  | confirmSnapshotRestored known => exact execution _ _ (.confirmSnapshotRestored _ _) rfl rfl
  | markApplied known => exact execution _ _ (.markApplied _ _) rfl rfl
  | request found => exact execution _ _ (.serve _ _ (List.mem_of_getElem? found) rfl) rfl rfl
  | reply found => exact execution _ _ (.resume _ _ (List.mem_of_getElem? found)) rfl rfl
  | readIndex known started | dropCall | returnRead settled => exact ⟨rfl, fun node => Or.inl rfl⟩
  | fault known => exact execution _ _ (.fault _ _) rfl rfl
  | @restart target opts n known started =>
    refine ⟨rfl, fun node => ?_⟩
    by_cases same : node = target
    · subst same
      refine Or.inr (Or.inr ⟨opts, rfl, ?_⟩)
      rw [started]
      simp only [setNode, Function.update_self]
    · left
      simp only [setNode, Function.update_of_ne same]

end Cluster

end ForgeDB.Raft
