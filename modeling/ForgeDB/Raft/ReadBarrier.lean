import ForgeDB.Raft.Agreement
import ForgeDB.Raft.Traffic

/-!
The read barrier. A leader captures its commit index and asks its peers once more whether it leads. The answers
it counts were given after it started, and a majority of peers at its term excludes every later leader. What
earlier leaders committed is covered only if nothing is left from them above its commit index.
-/

namespace ForgeDB.Raft

open Consensus

def Reply.term : Reply → Nat
  | .requestVote reply => reply.term
  | .appendEntries reply => reply.term
  | .installSnapshot reply => reply.term

namespace Node

def CaughtUp (n : Node) : Prop :=
  ∀ index term, n.commitIndex < index → n.log.termAt index = some term → term = n.currentTerm

theorem resetElectionTimer_term (n : Node) : n.resetElectionTimer.currentTerm = n.currentTerm :=
  congrArg Core.currentTerm n.resetElectionTimer_core

theorem handleRequestVote_term (n : Node) (args : RequestVoteArgs) :
    (n.handleRequestVote args).2.term = (n.handleRequestVote args).1.currentTerm := by
  rcases shape : n.observeTerm args.term with ⟨m, accepted⟩
  simp only [handleRequestVote, shape]
  split
  · rfl
  split
  · rfl
  rcases persist_cases { m with votedFor := args.candidateID } with ⟨later, same⟩ | ⟨later, same⟩
  · simp only [same, Bool.false_eq_true, if_false]
  · simp only [same, if_true, resetElectionTimer_term]

theorem handleAppendEntries_term (n : Node) (args : AppendEntriesArgs) :
    (n.handleAppendEntries args).2.term = (n.handleAppendEntries args).1.currentTerm := by
  rcases shape : n.observeTerm args.term with ⟨m, accepted⟩
  simp only [handleAppendEntries, shape]
  split
  · rfl
  split
  · rfl
  generalize m.follow args.leaderID = f
  rcases f.log.appendAfter args.prevLogIndex args.entries with ⟨log, changed⟩
  cases changed
  · rfl
  · rcases persist_cases { f with log := log } with ⟨later, same⟩ | ⟨later, same⟩
    · simp only [same, if_true, Bool.not_false]
    · simp only [same, if_true, Bool.not_true, Bool.false_eq_true, if_false]

theorem installSnapshot_term (n : Node) (snap : Snapshot) :
    (n.installSnapshot snap).2.term = (n.installSnapshot snap).1.currentTerm := by
  rcases n.installSnapshot_shape snap with ⟨later, saved, _, same⟩ | ⟨later, commitCh, same⟩ <;> rw [same]

theorem handleInstallSnapshot_term (n : Node) (args : InstallSnapshotArgs) :
    (n.handleInstallSnapshot args).2.term = (n.handleInstallSnapshot args).1.currentTerm := by
  have path := n.handleInstallSnapshot_path args
  generalize n.handleInstallSnapshot args = result at path ⊢
  cases path with
  | refused => rfl
  | covered => rfl
  | received => rfl
  | installed => exact installSnapshot_term _ _

theorem serve_term (n : Node) (call : Call) : (n.serve call).2.term = (n.serve call).1.currentTerm := by
  cases call with
  | requestVote peer args => exact n.handleRequestVote_term args
  | appendEntries peer args => exact n.handleAppendEntries_term args
  | installSnapshot peer snap args => exact n.handleInstallSnapshot_term args

theorem resume_acked {n : Node} {call : Call} {reply : Reply} (acked : (n.resume call reply).2.2 = true) :
    ∃ peer args, call = .appendEntries peer args ∧ reply.term ≤ args.term := by
  cases call with
  | requestVote peer args | installSnapshot peer snap args => cases reply <;> cases acked
  | appendEntries peer args =>
    cases reply with
    | requestVote reply => cases acked
    | installSnapshot reply => cases acked
    | appendEntries reply =>
      refine ⟨peer, args, rfl, ?_⟩
      simp only [resume, sendAppendEntriesReply] at acked
      by_cases newer : n.currentTerm < reply.term
      · simp only [newer, if_true] at acked
        cases acked
      · by_cases stale : n.role ≠ .leader ∨ n.currentTerm ≠ args.term
        · simp only [newer, if_false, stale, if_true] at acked
          cases acked
        · have same : n.currentTerm = args.term := by
            by_contra other
            exact stale (Or.inr other)
          have bound := Nat.le_of_not_lt newer
          rw [same] at bound
          exact bound

end Node

namespace Cluster

theorem step_term {c after : Cluster} {action : Action} {record : Record} (described : Described record c)
    (taken : c.step action = some after) {node : String} (known : node ∈ c.members) :
    (c.nodes node).currentTerm ≤ (after.nodes node).currentTerm := by
  rcases (step_nodes taken).2 node with still | moved | ⟨opts, rfl, started⟩
  · rw [still]
  · exact moved.onward.term
  · obtain ⟨suffix, _, core⟩ := newNode_core started
    have term : (after.nodes node).currentTerm =
        (c.nodes node).persister.state.elim 0 PersistentState.currentTerm := congrArg Core.currentTerm core
    obtain ⟨covered, saved, _⟩ := (described.nodes node known).2.durable
    have held : ((c.nodes node).persister.state.getD ⟨0, "", []⟩).currentTerm = (c.nodes node).currentTerm :=
      congrArg PersistentState.currentTerm saved
    rw [term, ← held]
    cases (c.nodes node).persister.state <;> exact Nat.le_refl _

/-- The barrier numbered `start`, while its calls run. `floor` holds everyone's term when it was
started: no node has fallen below it, every reply to one of the calls was given at or above it, and
whoever acknowledged a call stood no higher than the barrier's term. -/
structure Watched (start : Nat) (node : String) (round : Node.ReadRound) (floor : String → Nat) (c : Cluster) :
    Prop where
  terms : ∀ member ∈ c.members, floor member ≤ (c.nodes member).currentTerm
  issued : start + round.calls.length < c.nextCall
  calls : ∀ packet ∈ c.network, ∀ slot call, round.calls[slot]? = some call → packet.id = start + 1 + slot →
    packet.call = call
  replies : ∀ id src call reply, Packet.reply id src call reply ∈ c.network → start < id →
    id ≤ start + round.calls.length → floor call.peer ≤ reply.term
  reads : ∀ read ∈ c.reads, read.id = start → read.node = node ∧ read.round = round ∧
    read.answers.length = round.calls.length ∧ ∀ slot id known, read.answers[slot]? = some (id, known) →
      id = start + 1 + slot ∧ (known = some true → ∀ call, round.calls[slot]? = some call →
        floor call.peer ≤ round.term)

section Watch

variable {start : Nat} {node : String} {round : Node.ReadRound} {floor : String → Nat} {c after : Cluster}

theorem Watched.answer (watched : Watched start node round floor c)
    (leads : ∀ call ∈ round.calls, ∃ peer args, call = .appendEntries peer args ∧ args.term = round.term)
    {slot : Nat} {src : String} {call wanted : Call} {reply : Reply}
    (sent : Packet.reply (start + 1 + slot) src call reply ∈ c.network)
    (acked : ((c.nodes src).resume call reply).2.2 = true) (asked : round.calls[slot]? = some wanted) :
    floor wanted.peer ≤ round.term := by
  have inside : slot < round.calls.length := (List.getElem?_eq_some_iff.mp asked).1
  have same : call = wanted := watched.calls _ sent slot wanted asked rfl
  subst same
  have answered := watched.replies _ _ _ _ sent (by omega) (by omega)
  obtain ⟨peer, args, rfl, bound⟩ := Node.resume_acked acked
  obtain ⟨_, _, same, term⟩ := leads _ (List.mem_of_getElem? asked)
  cases same
  rw [← term]
  exact answered.trans bound

theorem Watched.step (watched : Watched start node round floor c)
    (leads : ∀ call ∈ round.calls, ∃ peer args, call = .appendEntries peer args ∧ args.term = round.term)
    (traffic : Traffic c after) (members : after.members = c.members)
    (known : ∀ packet ∈ c.network, packet.call.peer ∈ c.members)
    (terms : ∀ member ∈ c.members, (c.nodes member).currentTerm ≤ (after.nodes member).currentTerm) :
    Watched start node round floor after where
  terms member inside := by
    rw [members] at inside
    exact (watched.terms member inside).trans (terms member inside)
  issued := watched.issued.trans_le traffic.counter
  calls packet sent slot call asked number := by
    have inside : slot < round.calls.length := (List.getElem?_eq_some_iff.mp asked).1
    have bound := watched.issued
    rcases traffic.packets packet sent with
      old | ⟨id, src, fresh, rfl, above, _, _⟩ | ⟨id, src, served, rfl, request, _⟩
    · exact watched.calls packet old slot call asked number
    · simp only [Packet.id] at number
      omega
    · exact watched.calls _ request slot call asked number
  replies id src call reply sent above below := by
    rcases traffic.packets _ sent with old | ⟨_, _, _, same, _, _, _⟩ | ⟨_, _, _, same, request, _⟩
    · exact watched.replies id src call reply old above below
    · cases same
    · cases same
      rw [Node.serve_term]
      exact (watched.terms _ (known _ request)).trans (Node.serve_onward _ _).term
  reads read waiting same := by
    rcases traffic.reads read waiting with old | ⟨above, _⟩ | ⟨earlier, there, id, acked, rfl, counted⟩
    · exact watched.reads read old same
    · have bound := watched.issued
      omega
    · obtain ⟨owner, rounds, length, answers⟩ := watched.reads earlier there same
      refine ⟨owner, rounds, by simp only [PendingRead.answer, List.length_map, length], ?_⟩
      intro slot number outcome found
      simp only [PendingRead.answer, List.getElem?_map, Option.map_eq_some_iff] at found
      obtain ⟨⟨oldNumber, oldOutcome⟩, present, changed⟩ := found
      obtain ⟨numbered, earlierAck⟩ := answers slot oldNumber oldOutcome present
      split at changed
      · rename_i matches_
        cases changed
        refine ⟨numbered, fun positive call asked => ?_⟩
        cases oldOutcome with
        | some outcome => exact earlierAck positive call asked
        | none =>
          simp only [Option.getD_none, Option.some.injEq] at positive
          obtain ⟨src, sentCall, reply, sent, resumed⟩ := counted positive
          rw [← matches_, numbered] at sent
          exact watched.answer leads sent resumed asked
      · cases changed
        exact ⟨numbered, earlierAck⟩

theorem Issued.watched (issued : Issued c) (round : Node.ReadRound) :
    Watched c.nextCall node round (fun member => (c.nodes member).currentTerm) (c.startRead node round) where
  terms member _ := Nat.le_refl _
  issued := by
    simp only [startRead, post]
    omega
  calls packet sent slot call asked number := by
    simp only [startRead, post, requests, List.mem_append, List.mem_mapIdx] at sent
    rcases sent with old | ⟨place, inside, rfl⟩
    · have bound := issued.packets packet old
      omega
    · simp only [Packet.id] at number
      have same : place = slot := by omega
      subst same
      rw [List.getElem?_eq_getElem inside, Option.some.injEq] at asked
      exact asked
  replies id src call reply sent above _ := by
    simp only [startRead, post, requests, List.mem_append, List.mem_mapIdx] at sent
    rcases sent with old | ⟨_, _, same⟩
    · have bound := issued.packets _ old
      simp only [Packet.id] at bound
      omega
    · cases same
  reads read waiting same := by
    simp only [startRead, List.mem_cons] at waiting
    rcases waiting with rfl | old
    · refine ⟨rfl, rfl, by simp only [List.length_mapIdx], fun slot id known found => ?_⟩
      simp only [List.getElem?_mapIdx, Option.map_eq_some_iff] at found
      obtain ⟨_, _, same⟩ := found
      cases same
      exact ⟨rfl, fun positive => by cases positive⟩
    · have bound := issued.reads read old
      omega

theorem Runs.watched {record : Record} (described : Described record c)
    (leads : ∀ call ∈ round.calls, ∃ peer args, call = .appendEntries peer args ∧ args.term = round.term)
    (issued : Issued c) (watched : Watched start node round floor c) (run : Runs c after) :
    Watched start node round floor after := by
  have all : Issued after ∧ Watched start node round floor after := by
    induction run with
    | refl => exact ⟨issued, watched⟩
    | tail before moved ih =>
      obtain ⟨action, taken⟩ := moved
      obtain ⟨larger, _, describedBefore⟩ := Runs.described described before
      have traffic := step_traffic taken
      refine ⟨traffic.issued ih.1, ih.2.step leads traffic (step_nodes taken).1 ?_ ?_⟩
      · intro packet sent
        have ok := describedBefore.packets packet sent
        cases packet with
        | request id src call => exact RequestOk.peer_known ok
        | reply id src call reply => exact ok.1.peer_known
      · exact fun member known => step_term describedBefore taken known
  exact all.2

theorem Watched.quorum (watched : Watched start node round floor c) {members : List String} {peers : List String}
    (distinct : members.Nodup) (known : node ∈ members) (others : peers.Perm (members.erase node))
    (asked : (round.calls.map Call.peer).Sublist peers) (own : floor node ≤ round.term) {read : PendingRead}
    (waiting : read ∈ c.reads) (same : read.id = start) (enough : members.length / 2 + 1 ≤ 1 + read.acks) :
    ∃ quorum, IsQuorum members quorum ∧ ∀ member ∈ quorum, floor member ≤ round.term := by
  obtain ⟨_, _, length, answers⟩ := watched.reads read waiting same
  have positive : ∀ pair ∈ (read.answers.zip round.calls).filter (fun pair => pair.1.2 = some true),
      floor pair.2.peer ≤ round.term := by
    intro pair counted
    rw [List.mem_filter] at counted
    obtain ⟨slot, place⟩ := List.mem_iff_getElem?.mp counted.1
    rw [List.getElem?_zip_eq_some] at place
    exact (answers slot pair.1.1 pair.1.2 place.1).2 (of_decide_eq_true counted.2) pair.2 place.2
  have peersOf : (((read.answers.zip round.calls).filter (fun pair => pair.1.2 = some true)).map
      (fun pair => pair.2.peer)).Sublist peers := by
    refine List.Sublist.trans ((List.filter_sublist).map _) ?_
    have whole : (read.answers.zip round.calls).map (fun pair => pair.2.peer) = round.calls.map Call.peer := by
      have second : (read.answers.zip round.calls).map Prod.snd = round.calls := List.map_snd_zip length.ge
      conv_rhs => rw [← second, List.map_map]
      rfl
    rw [whole]
    exact asked
  have count : ((read.answers.zip round.calls).filter (fun pair => pair.1.2 = some true)).length = read.acks := by
    have first : (read.answers.zip round.calls).map Prod.fst = read.answers := List.map_fst_zip length.le
    unfold PendingRead.acks
    conv_rhs => rw [← first, List.filter_map, List.length_map]
    rfl
  have nodup : peers.Nodup := others.nodup_iff.mpr (distinct.erase node)
  refine ⟨node :: ((read.answers.zip round.calls).filter (fun pair => pair.1.2 = some true)).map
    (fun pair => pair.2.peer), ⟨?_, ?_, ?_⟩, ?_⟩
  · refine List.nodup_cons.mpr ⟨fun inside => ?_, peersOf.nodup nodup⟩
    exact (List.Nodup.mem_erase_iff distinct).mp (others.mem_iff.mp (peersOf.subset inside)) |>.1 rfl
  · intro member inside
    rcases List.mem_cons.mp inside with rfl | peer
    · exact known
    · exact List.mem_of_mem_erase (others.mem_iff.mp (peersOf.subset peer))
  · rw [List.length_cons, List.length_map, count]
    omega
  · intro member inside
    rcases List.mem_cons.mp inside with rfl | peer
    · exact own
    · obtain ⟨pair, counted, rfl⟩ := List.mem_map.mp peer
      exact positive pair counted

end Watch

theorem committed_le_caughtUp {members : List String} {record : Record} {n : Node}
    (sound : History.Sound members record) (ok : CoreOk members record n.core) (leads : n.role = .leader)
    (caughtUp : n.CaughtUp) {bound term : Nat} (commit : History.Committed members record bound term)
    (le : term ≤ n.currentTerm) : bound ≤ n.commitIndex := by
  have leader : LeaderOk record n.core := ok.leader leads
  have committed : record.committed n.currentTerm = n.commitIndex := leader.committed
  rcases Nat.eq_or_lt_of_le le with rfl | lt
  · exact committed ▸ commit.reached
  by_contra above
  rw [Nat.not_le] at above
  have led : (record.leader n.currentTerm).isSome := by
    rw [show record.leader n.currentTerm = some n.id from leader.elected]
    rfl
  -- The committed position was inherited, so its stamp is an earlier term.
  have carries := sound.carries_committed commit n.currentTerm lt led
  have inherited := (sound.carried carries (Nat.le_refl bound) commit.own commit.length_le).1
  rcases Nat.lt_or_ge n.log.sentinel.index bound with inside | covered
  · have reach : bound ≤ n.log.lastIndex := by
      have long := termAt_le_length inherited
      have last : (record.log n.currentTerm).length = n.log.lastIndex := leader.length_eq
      omega
    obtain ⟨found, present⟩ := Log.termAt_of_le inside.le reach
    have own : found = n.currentTerm := caughtUp bound found above present
    have same : termAt (record.log n.currentTerm) bound = some found := leader.termAt_eq present
    rw [inherited, Option.some.injEq] at same
    omega
  · -- The position is compacted: its boundary was committed by this very term, hence counted.
    have base : n.log.sentinel.term = n.currentTerm :=
      caughtUp n.log.sentinel.index _ (above.trans_le covered) n.log.termAt_sentinel
    have anchored : Anchored members record n.log.sentinel.index n.log.sentinel.term n.currentTerm := ok.anchored
    rcases anchored with ⟨zero, _⟩ | ⟨top, chosen, agreed, chosenLe, below, found⟩
    · have positive := commit.positive
      omega
    · have origin := (sound.origin found (commit.positive.trans_le covered)).1
      have same : chosen = n.currentTerm := by omega
      subst same
      have counted := agreed.reached
      omega

theorem step_readIndex {c after : Cluster} {node : String} (taken : c.step (.readIndex node) = some after) :
    ∃ round, node ∈ c.members ∧ (c.nodes node).readIndexStart = .ok round ∧ after = c.startRead node round := by
  cases step_taken taken with
  | readIndex known started => exact ⟨_, known, started, rfl⟩

/-- The read barrier. If a barrier was called on a leader with nothing left from earlier leaders above
its commit index, the index it returns covers everything any node had marked committed before the
call. -/
theorem readIndex_covers {first earlier before started c : Cluster} (boot : first.Bootstrapped)
    (run : Runs first earlier) (lead : Runs earlier before) {node : String}
    (called : before.step (.readIndex node) = some started) (caughtUp : (before.nodes node).CaughtUp)
    (rest : Runs started c) {read : PendingRead} (waiting : read ∈ c.reads) (same : read.id = before.nextCall)
    {index : Nat} (returned : c.readResult read = some (.ok index)) {member : String}
    (known : member ∈ before.members) :
    (earlier.nodes member).commitIndex ≤ index := by
  obtain ⟨_, _, describedEarlier⟩ := Runs.described boot.described run
  obtain ⟨record, grown, described⟩ := lead.described describedEarlier
  obtain ⟨_, _, describedStarted⟩ := step_described _ _ _ described ⟨_, called⟩
  have membership := lead.members
  have issued : Issued before := Runs.issued boot (run.trans lead)
  have issuedStarted := (step_traffic called).issued issued
  -- The call captured the leader's term and commit index.
  obtain ⟨round, here, begun, rfl⟩ := step_readIndex called
  obtain ⟨leads, term, captured, majority, calls, asked⟩ := Node.readIndexStart_cases begun
  have watched := Runs.watched describedStarted calls issuedStarted (issued.watched round) rest
  obtain ⟨owner, rounds, _⟩ := watched.reads read waiting same
  obtain ⟨id, ok⟩ := described.nodes node here
  have size : round.majority = before.members.length / 2 + 1 := majority.trans (Node.majority_eq ok)
  have others : (before.nodes node).peers.Perm (before.members.erase node) := by
    have perm := ok.others
    rwa [show (before.nodes node).core.id = node from id] at perm
  -- The returned index is the captured one, and enough peers acknowledged.
  have settled : index = (before.nodes node).commitIndex ∧ before.members.length / 2 + 1 ≤ 1 + read.acks := by
    unfold readResult at returned
    split at returned
    case isFalse => cases returned
    simp only [Option.some.injEq, Node.readIndexFinish, rounds] at returned
    split at returned
    · cases returned
      exact ⟨captured, by omega⟩
    · split at returned
      · cases returned
      · rename_i enough
        cases returned
        exact ⟨captured, by omega⟩
  obtain ⟨rfl, enough⟩ := settled
  obtain ⟨quorum, isQuorum, low⟩ := watched.quorum ok.distinct here others asked term.ge waiting same enough
  -- What the member had committed was committed by some term.
  have reached := (describedEarlier.nodes member (membership ▸ known)).2.settled.reached
  rcases reached with zero | ⟨bound, chosen, commit, _, inside⟩
  · have none : (earlier.nodes member).commitIndex = 0 := zero
    omega
  have agreed : History.Committed before.members record bound chosen := by
    rw [membership]
    exact commit.mono grown
  refine Nat.le_trans inside (committed_le_caughtUp described.sound ok leads caughtUp agreed ?_)
  -- A later term would have been elected by someone in the acknowledging majority.
  by_contra later
  rw [Nat.not_le] at later
  obtain ⟨chief, elected⟩ := Option.isSome_iff_exists.mp (agreed.led described.sound)
  obtain ⟨electors, electorQuorum, voted⟩ := described.sound.elected chosen chief elected
  obtain ⟨voter, inElectors, inQuorum⟩ := IsQuorum.meet electorQuorum isQuorum
  obtain ⟨voterId, voterOk⟩ := described.nodes voter (isQuorum.subset voter inQuorum)
  have behind := low voter inQuorum
  have vote := voterOk.unvoted chosen (show (before.nodes voter).currentTerm < chosen by omega)
  rw [show (before.nodes voter).core.id = voter from voterId, (voted voter inElectors).1] at vote
  cases vote

end Cluster

end ForgeDB.Raft
