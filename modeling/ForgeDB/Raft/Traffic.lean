import ForgeDB.Raft.Progress

/-!
The traffic of a cluster: which calls a node may make, what a step may add to the network and to
the barriers in flight, and that every call carries a number of its own.
-/

namespace ForgeDB.Raft

namespace Packet

def id : Packet → Nat
  | .request id _ _ => id
  | .reply id _ _ _ => id

def call : Packet → Call
  | .request _ _ call => call
  | .reply _ _ call _ => call

end Packet

namespace Node

def boundary (n : Node) : Snapshot := ⟨n.log.sentinel.index, n.log.sentinel.term, n.snapshotData⟩

theorem boundary_of_fields {n after : Node} (sentinel : after.log.sentinel = n.log.sentinel)
    (data : after.snapshotData = n.snapshotData) : after.boundary = n.boundary := by
  rw [boundary, boundary, sentinel, data]

theorem boundary_of_kept {n after : Node} (kept : after.kept = n.kept) : after.boundary = n.boundary :=
  boundary_of_fields (congrArg (fun k => k.log.sentinel) kept) (congrArg Kept.snapshotData kept)

structure Replicates (n : Node) (peer : String) (args : AppendEntriesArgs) : Prop where
  leading : n.role = .leader
  known : peer ∈ n.peers
  reachable : n.log.sentinel.index < n.nextIndex peer
  term : args.term = n.currentTerm
  previous : args.prevLogIndex = n.nextIndex peer - 1
  prevTerm : args.prevLogTerm = (n.log.termAt args.prevLogIndex).getD 0
  entries : args.entries = n.log.slice (args.prevLogIndex + 1)

def Offers (n : Node) (snap : Snapshot) (args : InstallSnapshotArgs) : Prop :=
  n.role = .leader ∧ n.currentTerm = args.term ∧ n.boundary = snap ∧
    ∃ sender : Node, args = sender.sendInstallSnapshotArgs args.term snap 0

def Continues (snap : Snapshot) (earlier args : InstallSnapshotArgs) : Prop :=
  earlier.final = false ∧
    ∃ sender : Node, args = sender.sendInstallSnapshotArgs earlier.term snap (earlier.offset + earlier.data.length)

/-- The calls a node may make, in terms of the node they leave and of the answers on the network. -/
inductive Issues (network : List Packet) (src : String) (n : Node) : Call → Prop where
  | vote (peer : String) (args : RequestVoteArgs) : Issues network src n (.requestVote peer args)
  | replicate {peer : String} {args : AppendEntriesArgs} (replicates : n.Replicates peer args) :
    Issues network src n (.appendEntries peer args)
  | offer {peer : String} {snap : Snapshot} {args : InstallSnapshotArgs} (offers : n.Offers snap args) :
    Issues network src n (.installSnapshot peer snap args)
  | resume {id : Nat} {peer : String} {snap : Snapshot} {earlier args : InstallSnapshotArgs}
    {answer : InstallSnapshotReply}
    (sent : Packet.reply id src (.installSnapshot peer snap earlier) (.installSnapshot answer) ∈ network)
    (success : answer.success = true) (continues : Continues snap earlier args) :
    Issues network src n (.installSnapshot peer snap args)

def Issuing (network : List Packet) (src : String) (result : Node × List Call) : Prop :=
  ∀ call ∈ result.2, result.1.Issues network src call

section

variable {network : List Packet} {src : String} {n : Node}

theorem issuing_nil : Issuing network src (n, []) := fun _ made => nomatch made

theorem broadcastAppendEntries_issuing (leading : n.role = .leader) :
    Issuing network src n.broadcastAppendEntries := by
  intro call made
  obtain ⟨role, term, log, _, next, _⟩ := n.maybeAdvanceCommitIndex_frame
  have kept := n.maybeAdvanceCommitIndex_kept
  obtain ⟨peer, known, rfl⟩ := List.mem_map.mp made
  unfold broadcastCall
  dsimp only
  split
  · exact .offer ⟨role.trans leading, term, boundary_of_kept kept, n, rfl⟩
  · rename_i ahead
    refine .replicate ⟨role.trans leading, ?_, ?_, term.symm, ?_, ?_, ?_⟩
    · exact (congrArg (fun k : Kept => peer ∈ k.peers) kept).mpr known
    · exact log ▸ next ▸ Nat.lt_of_not_le ahead
    · rw [broadcastAppendEntries, next]
      rfl
    · rw [broadcastAppendEntries, log]
      rfl
    · rw [broadcastAppendEntries, log]
      rfl

theorem startElection_issuing : Issuing network src n.startElection := by
  unfold startElection
  dsimp only
  split
  · split
    · exact broadcastAppendEntries_issuing rfl
    · intro call made
      obtain ⟨peer, _, rfl⟩ := List.mem_map.mp made
      exact .vote peer _
  · exact issuing_nil

theorem tick_issuing : Issuing network src n.tick := by
  unfold tick
  split
  · rename_i leading
    dsimp only
    split
    · exact broadcastAppendEntries_issuing leading
    · exact issuing_nil
  · dsimp only
    split
    · exact startElection_issuing
    · exact issuing_nil

theorem propose_issuing (command : Command) : Issuing network src ((n.propose command).1, (n.propose command).2.2) := by
  unfold propose
  split
  · exact issuing_nil
  · rename_i leading
    dsimp only
    split
    · exact broadcastAppendEntries_issuing (not_not.mp leading)
    · exact issuing_nil

theorem resume_issuing {id : Nat} {call : Call} {reply : Reply} (sent : Packet.reply id src call reply ∈ network) :
    Issuing network src ((n.resume call reply).1, (n.resume call reply).2.1) := by
  cases call with
  | requestVote peer args =>
    cases reply with
    | requestVote reply =>
      simp only [resume, sendRequestVoteReply]
      split
      · exact issuing_nil
      split
      · exact issuing_nil
      split
      · exact issuing_nil
      split
      · exact broadcastAppendEntries_issuing rfl
      · exact issuing_nil
    | _ => exact issuing_nil
  | appendEntries peer args => cases reply <;> exact issuing_nil
  | installSnapshot peer snap args =>
    cases reply with
    | installSnapshot reply =>
      simp only [resume, sendInstallSnapshotReply]
      split
      · exact issuing_nil
      split
      · exact issuing_nil
      split
      · exact issuing_nil
      split
      · exact issuing_nil
      · rename_i taken more
        intro call made
        obtain rfl := List.mem_singleton.mp made
        exact .resume sent (by simpa using taken) ⟨by simpa using more, n, rfl⟩
    | _ => exact issuing_nil

theorem readIndexStart_issuing {round : ReadRound} (started : n.readIndexStart = .ok round) :
    Issuing network src (n, round.calls) := by
  unfold readIndexStart at started
  split at started
  · cases started
  · rename_i leading
    cases started
    intro call made
    simp only [readIndexCalls, List.mem_filterMap, Option.ite_none_left_eq_some, Option.some.injEq] at made
    obtain ⟨peer, known, ahead, rfl⟩ := made
    exact .replicate ⟨not_not.mp leading, known, Nat.lt_of_not_le ahead, rfl, rfl, rfl, rfl⟩

end

theorem readIndexStart_cases {n : Node} {round : ReadRound} (started : n.readIndexStart = .ok round) :
    n.role = .leader ∧ round.term = n.currentTerm ∧ round.index = n.commitIndex ∧ round.majority = n.majority ∧
      (∀ call ∈ round.calls, ∃ peer args, call = .appendEntries peer args ∧ args.term = round.term) ∧
      (round.calls.map Call.peer).Sublist n.peers := by
  unfold readIndexStart at started
  split at started
  · cases started
  · rename_i leads
    cases started
    refine ⟨not_not.mp leads, rfl, rfl, rfl, fun call made => ?_, ?_⟩
    · simp only [readIndexCalls, List.mem_filterMap] at made
      obtain ⟨peer, _, made⟩ := made
      split at made
      · cases made
      · cases made
        exact ⟨peer, _, rfl, rfl⟩
    · simp only [readIndexCalls]
      generalize n.peers = peers
      induction peers with
      | nil => exact List.Sublist.refl []
      | cons peer peers ih =>
        rw [List.filterMap_cons]
        split
        · exact ih.cons peer
        · rename_i call made
          split at made
          · cases made
          · cases made
            exact ih.cons_cons peer

end Node

namespace Cluster

structure Traffic (c after : Cluster) : Prop where
  counter : c.nextCall ≤ after.nextCall
  packets : ∀ packet ∈ after.network, packet ∈ c.network ∨
    (∃ id src call, packet = .request id src call ∧ c.nextCall ≤ id ∧ id < after.nextCall ∧
      (after.nodes src).Issues c.network src call) ∨
    ∃ id src call, packet = .reply id src call ((c.nodes call.peer).serve call).2 ∧
      Packet.request id src call ∈ c.network ∧ after.nodes call.peer = ((c.nodes call.peer).serve call).1
  reads : ∀ read ∈ after.reads, read ∈ c.reads ∨ (c.nextCall ≤ read.id ∧ read.id < after.nextCall) ∨
    ∃ earlier ∈ c.reads, ∃ id acked, read = earlier.answer id acked ∧
      (acked = true → ∃ src call reply, Packet.reply id src call reply ∈ c.network ∧
        ((c.nodes src).resume call reply).2.2 = true)

theorem Traffic.of_post {c middle : Cluster} {src : String} {n : Node} {calls : List Call}
    (issuing : Node.Issuing c.network src (n, calls)) (moved : middle.nodes src = n)
    (network : middle.network = c.network) (counter : middle.nextCall = c.nextCall) (reads : middle.reads = c.reads) :
    Traffic c (middle.post src calls) := by
  refine ⟨?_, fun packet sent => ?_, fun read waiting => ?_⟩
  · simp only [post, counter]
    exact Nat.le_add_right _ _
  · simp only [post, network, counter, requests, List.mem_append, List.mem_mapIdx] at sent
    rcases sent with old | ⟨slot, inside, rfl⟩
    · exact Or.inl old
    · refine Or.inr (Or.inl ⟨_, _, _, rfl, by omega, ?_, moved.symm ▸ issuing _ (List.getElem_mem inside)⟩)
      simp only [post, counter]
      omega
  · simp only [post, reads] at waiting
    exact Or.inl waiting

theorem Traffic.of_quiet {c after : Cluster} (network : after.network = c.network)
    (counter : after.nextCall = c.nextCall) (reads : ∀ read ∈ after.reads, read ∈ c.reads) : Traffic c after := by
  refine ⟨counter.ge, fun packet sent => ?_, fun read waiting => Or.inl (reads read waiting)⟩
  rw [network] at sent
  exact Or.inl sent

theorem step_traffic {c after : Cluster} {action : Action} (taken : c.step action = some after) : Traffic c after := by
  cases step_taken taken with
  | @tick node known =>
    exact @Traffic.of_post c (c.setNode node _) _ _ _ Node.tick_issuing (Function.update_self ..) rfl rfl rfl
  | @propose node command known =>
    exact @Traffic.of_post c (c.setNode node _) _ _ _ (Node.propose_issuing command) (Function.update_self ..) rfl
      rfl rfl
  | createSnapshot known | confirmSnapshotRestored known | markApplied known =>
    exact Traffic.of_quiet rfl rfl fun read waiting => waiting
  | @request slot id src call found =>
    refine ⟨Nat.le_refl _, fun packet present => ?_, fun read waiting => Or.inl waiting⟩
    simp only [deliver, setNode, List.mem_append, List.mem_singleton] at present
    rcases present with old | rfl
    · exact Or.inl old
    · exact Or.inr (Or.inr ⟨id, src, call, rfl, List.mem_of_getElem? found, Function.update_self ..⟩)
  | @reply slot id src call reply found =>
    have known := List.mem_of_getElem? found
    have posted : Traffic c ((c.setNode src ((c.nodes src).resume call reply).1).post src
        ((c.nodes src).resume call reply).2.1) :=
      Traffic.of_post (Node.resume_issuing known) (Function.update_self ..) rfl rfl rfl
    refine ⟨posted.counter, posted.packets, fun read waiting => ?_⟩
    simp only [deliver, answerReads, post, setNode, List.mem_map] at waiting
    obtain ⟨earlier, there, rfl⟩ := waiting
    exact Or.inr (Or.inr ⟨earlier, there, id, _, rfl, fun acked => ⟨src, call, reply, known, acked⟩⟩)
  | @readIndex node round known started =>
    have posted : Traffic { c with nextCall := c.nextCall + 1 }
        ({ c with nextCall := c.nextCall + 1 }.post node round.calls) :=
      Traffic.of_post (Node.readIndexStart_issuing started) rfl rfl rfl rfl
    refine ⟨(Nat.le_succ _).trans posted.counter, fun packet sent => ?_, fun read waiting => ?_⟩
    · rcases posted.packets packet sent with old | ⟨id, src, call, rfl, above, below⟩ | served
      · exact Or.inl old
      · exact Or.inr (Or.inl ⟨id, src, call, rfl, (Nat.le_succ _).trans above, below⟩)
      · exact Or.inr (Or.inr served)
    · simp only [startRead, List.mem_cons] at waiting
      rcases waiting with rfl | old
      · exact Or.inr (Or.inl ⟨Nat.le_refl _, (Nat.lt_succ_self _).trans_le posted.counter⟩)
      · exact Or.inl old
  | @dropCall id =>
    refine ⟨Nat.le_refl _, fun packet sent => Or.inl sent, fun read waiting => ?_⟩
    simp only [answerReads, List.mem_map] at waiting
    obtain ⟨earlier, there, rfl⟩ := waiting
    exact Or.inr (Or.inr ⟨earlier, there, id, false, rfl, fun acked => by cases acked⟩)
  | returnRead settled => exact Traffic.of_quiet rfl rfl fun read waiting => List.mem_of_mem_filter waiting
  | fault known => exact Traffic.of_quiet rfl rfl fun read waiting => waiting
  | restart known started => exact Traffic.of_quiet rfl rfl fun read waiting => List.mem_of_mem_filter waiting

structure Issued (c : Cluster) : Prop where
  packets : ∀ packet ∈ c.network, packet.id < c.nextCall
  reads : ∀ read ∈ c.reads, read.id < c.nextCall

theorem Traffic.issued {c after : Cluster} (traffic : Traffic c after) (issued : Issued c) : Issued after := by
  refine ⟨fun packet sent => ?_, fun read waiting => ?_⟩
  · rcases traffic.packets packet sent with old | ⟨id, src, call, rfl, _, below, _⟩ | ⟨id, src, call, rfl, asked, _⟩
    · exact (issued.packets packet old).trans_le traffic.counter
    · exact below
    · exact (issued.packets _ asked).trans_le traffic.counter
  · rcases traffic.reads read waiting with old | ⟨_, below⟩ | ⟨earlier, there, id, acked, rfl, _⟩
    · exact (issued.reads read old).trans_le traffic.counter
    · exact below
    · exact (issued.reads earlier there).trans_le traffic.counter

theorem Runs.issued {first c : Cluster} (boot : first.Bootstrapped) (run : Runs first c) : Issued c := by
  induction run with
  | refl =>
    refine ⟨fun packet sent => ?_, fun read waiting => ?_⟩
    · rw [boot.quiet] at sent
      cases sent
    · rw [boot.idle] at waiting
      cases waiting
  | tail _ moved ih =>
    obtain ⟨action, taken⟩ := moved
    exact (step_traffic taken).issued ih

end Cluster

end ForgeDB.Raft
