import ForgeDB.Raft.Payload

/-!
How a node comes to lead, and which snapshots it then offers. While it leads a term its boundary only
moves up, and every transfer it starts is of the snapshot behind its log at that time.
-/

namespace ForgeDB.Raft

namespace Node

/-- A node that leads has led the same term already, or it has moved to a new term, or it was a candidate. -/
def Leads (n after : Node) : Prop :=
  after.role = .leader → (n.role = .leader ∧ n.currentTerm = after.currentTerm) ∨
    n.currentTerm < after.currentTerm ∨ n.role = .candidate

namespace Leads

theorem of_follower {n after : Node} (follows : after.role = .follower) : Leads n after := by
  intro leading
  rw [follows] at leading
  cases leading

theorem trans_same {n m after : Node} (leads : Leads n m) (role : after.role = m.role)
    (term : after.currentTerm = m.currentTerm) : Leads n after := by
  intro leading
  rw [term]
  exact leads (role.symm.trans leading)

theorem of_same {n after : Node} (role : after.role = n.role) (term : after.currentTerm = n.currentTerm) :
    Leads n after :=
  fun leading => Or.inl ⟨role.symm.trans leading, term.symm⟩

theorem of_core {n after : Node} (core : after.core = n.core) : Leads n after :=
  of_same (congrArg Core.role core) (congrArg Core.currentTerm core)

end Leads

theorem becomeFollower_leads (n : Node) (term : Nat) : Leads n (n.becomeFollower term).1 := by
  rcases n.becomeFollower_core term with ⟨_, core⟩ | ⟨_, core⟩
  · exact .of_core core
  · exact .of_follower (congrArg Core.role core)

theorem observeTerm_leads (n : Node) (term : Nat) : Leads n (n.observeTerm term).1 := by
  simp only [observeTerm]
  split
  · exact n.becomeFollower_leads term
  · exact .of_same rfl rfl

theorem follow_role (n : Node) (leaderID : String) : (n.follow leaderID).role = .follower :=
  congrArg Core.role (n.follow_core leaderID)

theorem broadcastAppendEntries_leads (n : Node) : Leads n n.broadcastAppendEntries.1 := by
  obtain ⟨role, term, _⟩ := n.maybeAdvanceCommitIndex_frame
  exact .of_same role term

theorem startElection_leads (n : Node) : Leads n n.startElection.1 := by
  rcases persist_cases { n with currentTerm := n.currentTerm + 1, votedFor := n.id } with
    ⟨later, same⟩ | ⟨later, same⟩
  · simp only [startElection, same, Bool.false_eq_true, if_false]
    exact .of_same rfl rfl
  · intro _
    refine Or.inr (Or.inl ?_)
    simp only [startElection, same, if_true]
    generalize shape : resetElectionTimer _ = m
    have stood : m.currentTerm = n.currentTerm + 1 := by
      have core := congrArg Node.core shape
      rw [resetElectionTimer_core] at core
      exact (congrArg Core.currentTerm core).symm
    split
    · rw [becomeLeader, broadcastAppendEntries, (maybeAdvanceCommitIndex_frame _).2.1]
      exact Nat.lt_of_lt_of_eq (Nat.lt_succ_self _) stood.symm
    · exact Nat.lt_of_lt_of_eq (Nat.lt_succ_self _) stood.symm

theorem tick_leads (n : Node) : Leads n n.tick.1 := by
  unfold tick
  split
  · dsimp only
    split
    · exact broadcastAppendEntries_leads { n with heartbeatElapsed := 0 }
    · exact .of_same rfl rfl
  · dsimp only
    split
    · exact startElection_leads { n with electionElapsed := n.electionElapsed + 1 }
    · exact .of_same rfl rfl

theorem propose_leads (n : Node) (command : Command) : Leads n (n.propose command).1 := by
  unfold propose
  split
  · exact .of_same rfl rfl
  · dsimp only
    split
    · exact broadcastAppendEntries_leads _
    · exact .of_same rfl rfl

theorem createSnapshot_leads (n : Node) (index : Nat) (data : Bytes) : Leads n (n.createSnapshot index data).1 := by
  rcases n.createSnapshot_core index data with core | ⟨term, _, _, _, core | core⟩ <;>
    exact .of_same (congrArg Core.role core) (congrArg Core.currentTerm core)

theorem handleRequestVote_leads (n : Node) (args : RequestVoteArgs) : Leads n (n.handleRequestVote args).1 := by
  rcases n.handleRequestVote_core args with ⟨_, core⟩ | ⟨_, _, _, core⟩ <;>
    exact (n.observeTerm_leads args.term).trans_same (congrArg Core.role core) (congrArg Core.currentTerm core)

theorem handleAppendEntries_leads (n : Node) (args : AppendEntriesArgs) : Leads n (n.handleAppendEntries args).1 := by
  rcases n.handleAppendEntries_core args with ⟨_, core | core⟩ | ⟨_, _, core⟩
  · exact (n.observeTerm_leads args.term).trans_same (congrArg Core.role core) (congrArg Core.currentTerm core)
  · exact .of_follower (congrArg Core.role core)
  · exact .of_follower (congrArg Core.role core)

theorem handleInstallSnapshot_leads (n : Node) (args : InstallSnapshotArgs) :
    Leads n (n.handleInstallSnapshot args).1 := by
  have leads := n.observeTerm_leads args.term
  have path := n.handleInstallSnapshot_path args
  generalize n.handleInstallSnapshot args = result at path ⊢
  cases path with
  | refused observed =>
    rw [observed] at leads
    exact leads
  | @covered m _ _ _ follows | @received m _ _ _ _ follows => exact .of_follower (follows ▸ m.follow_role args.leaderID)
  | @installed m f transfer data _ follows =>
    have role : f.role = .follower := follows ▸ m.follow_role args.leaderID
    refine .of_follower ?_
    rcases installSnapshot_core { f with chunkTransfer := transfer }
      ⟨args.lastIncludedIndex, args.lastIncludedTerm, data⟩ with ⟨_, core | core⟩ | core <;>
        exact (congrArg Core.role core).trans role

theorem resume_leads (n : Node) (call : Call) (reply : Reply) : Leads n (n.resume call reply).1 := by
  have resumes := n.resume_resumes call reply
  generalize (n.resume call reply).1 = after at resumes ⊢
  cases resumes with
  | same => exact .of_same rfl rfl
  | steppedDown => exact n.becomeFollower_leads _
  | counted => exact .of_same rfl rfl
  | elected _ standing => exact fun _ => Or.inr (Or.inr standing)
  | noted peer position =>
    obtain ⟨sameRole, sameTerm, _⟩ := n.noteProgress_frame peer position
    obtain ⟨role, term, _⟩ := (n.noteProgress peer position).maybeAdvanceCommitIndex_frame
    exact .of_same (role.trans sameRole) (term.trans sameTerm)
  | backedOff => exact .of_same rfl rfl

theorem Executes.leads {network : List Packet} {node : String} {action : Action} {n after : Node}
    (moved : Executes network node action n after) : Leads n after := by
  cases moved with
  | tick => exact n.tick_leads
  | propose _ command => exact n.propose_leads command
  | createSnapshot _ index data => exact n.createSnapshot_leads index data
  | confirmSnapshotRestored _ index => exact .of_core (n.confirmSnapshotRestored_core index)
  | markApplied _ index => exact .of_core (n.markApplied_core index)
  | @serve _ _ _ _ call =>
    cases call with
    | requestVote peer args => exact n.handleRequestVote_leads args
    | appendEntries peer args => exact n.handleAppendEntries_leads args
    | installSnapshot peer snap args => exact n.handleInstallSnapshot_leads args
  | resume => exact n.resume_leads _ _
  | fault => exact .of_same rfl rfl

theorem Executes.boundary {network : List Packet} {node : String} {action : Action} {n after : Node}
    (moved : Executes network node action n after) :
    after.boundary = n.boundary ∨ n.boundary.lastIncludedIndex < after.boundary.lastIncludedIndex := by
  have same {k : Kept} (kept : after.kept = k) (sentinel : k.log.sentinel = n.log.sentinel)
      (data : k.snapshotData = n.snapshotData) : after.boundary = n.boundary :=
    boundary_of_fields ((congrArg (fun k => k.log.sentinel) kept).trans sentinel)
      ((congrArg Kept.snapshotData kept).trans data)
  cases moved.alters with
  | still kept | wrote _ kept | saved _ _ _ kept | applied _ _ _ _ kept => exact Or.inl (same kept rfl rfl)
  | compacted _ above _ _ kept => exact Or.inr (above.trans_eq (congrArg (fun k => k.log.sentinel.index) kept).symm)
  | installed _ handled =>
    cases handled with
    | refused kept | covered _ _ kept => exact Or.inl (kept.elim (same · rfl rfl) (same · rfl rfl))
    | extended _ _ _ _ _ kept | saved _ _ _ _ kept => exact Or.inl (same kept rfl rfl)
    | adopted _ _ fresh _ kept =>
      refine Or.inr (fresh.trans_eq (Eq.symm ?_))
      exact (congrArg (fun k => k.log.sentinel.index) kept).trans
        (congrArg LogEntry.index (Log.installSnapshotBoundary_sentinel ..))

end Node

namespace Cluster

theorem step_chunks {c after : Cluster} {action : Action} (taken : c.step action = some after) {id : Nat}
    {src peer : String} {snap : Snapshot} {args : InstallSnapshotArgs}
    (sent : Packet.request id src (.installSnapshot peer snap args) ∈ after.network) :
    Packet.request id src (.installSnapshot peer snap args) ∈ c.network ∨ (after.nodes src).Offers snap args ∨
      ∃ number earlier answer, Packet.reply number src (.installSnapshot peer snap earlier) (.installSnapshot answer) ∈
        c.network ∧ answer.success = true ∧ Node.Continues snap earlier args := by
  rcases (step_traffic taken).packets _ sent with old | ⟨_, _, _, same, _, _, issues⟩ | ⟨_, _, _, same, _⟩
  · exact Or.inl old
  · cases same
    cases issues with
    | offer offers => exact Or.inr (Or.inl offers)
    | resume sent success continues => exact Or.inr (Or.inr ⟨_, _, _, sent, success, continues⟩)
  · cases same

theorem step_replies {c after : Cluster} {action : Action} (taken : c.step action = some after) {id : Nat}
    {src : String} {call : Call} {reply : Reply} (sent : Packet.reply id src call reply ∈ after.network) :
    Packet.reply id src call reply ∈ c.network ∨ Packet.request id src call ∈ c.network ∧
      reply = ((c.nodes call.peer).serve call).2 ∧ after.nodes call.peer = ((c.nodes call.peer).serve call).1 := by
  rcases (step_traffic taken).packets _ sent with old | ⟨_, _, _, same, _⟩ | ⟨_, _, _, same, asked, moved⟩
  · exact Or.inl old
  · cases same
  · cases same
    exact Or.inr ⟨asked, rfl, moved⟩

end Cluster

end ForgeDB.Raft
