import ForgeDB.Raft.Agreement
import ForgeDB.Raft.Traffic

/-!
What a leader sends. Its view of a peer stays inside its own log, so a replication call built from that
view names an entry the leader has, with the entry's term, and carries everything behind it.
-/

namespace ForgeDB.Raft

namespace Described

variable {record : Record} {c : Cluster}

theorem progress_inside (described : Described record c) {node : String} (known : node ∈ c.members)
    (leading : (c.nodes node).role = .leader) {peer : String} (other : peer ∈ (c.nodes node).peers) :
    1 ≤ (c.nodes node).nextIndex peer ∧ (c.nodes node).nextIndex peer ≤ (c.nodes node).log.lastIndex + 1 ∧
      (c.nodes node).matchIndex peer ≤ (c.nodes node).log.lastIndex := by
  have leader := (described.nodes node known).2.leader leading
  have length : (record.log (c.nodes node).currentTerm).length = (c.nodes node).log.lastIndex := leader.length_eq
  have next : 1 ≤ (c.nodes node).nextIndex peer ∧
      (c.nodes node).nextIndex peer ≤ (record.log (c.nodes node).currentTerm).length + 1 := leader.next peer other
  have committed := described.commit_le_last known
  have accepted := described.sound.ackedLe (c.nodes node).currentTerm peer
  refine ⟨next.1, length ▸ next.2, ?_⟩
  rcases leader.matched peer other with held | settled
  · exact length ▸ held.trans accepted
  · exact settled.trans committed

theorem replicates_log (described : Described record c) {node : String} (known : node ∈ c.members) {peer : String}
    {args : AppendEntriesArgs} (replicates : (c.nodes node).Replicates peer args) :
    (c.nodes node).log.termAt args.prevLogIndex = some args.prevLogTerm ∧
      args.entries = (c.nodes node).log.rest.drop (args.prevLogIndex - (c.nodes node).log.sentinel.index) := by
  obtain ⟨_, below, _⟩ := described.progress_inside known replicates.leading replicates.known
  have reachable := replicates.reachable
  have previous := replicates.previous
  obtain ⟨term, found⟩ : ∃ term, (c.nodes node).log.termAt args.prevLogIndex = some term :=
    Log.termAt_of_le (by omega) (by omega)
  constructor
  · rw [replicates.prevTerm, found, Option.getD_some]
  · obtain ⟨start, place⟩ :=
      Nat.exists_eq_add_of_le (show (c.nodes node).log.sentinel.index ≤ args.prevLogIndex by omega)
    rw [replicates.entries, place, Log.slice_eq, Nat.add_sub_cancel_left]

end Described

namespace Cluster

theorem step_replicates {c after : Cluster} {action : Action} (taken : c.step action = some after) {id : Nat}
    {src peer : String} {args : AppendEntriesArgs}
    (sent : Packet.request id src (.appendEntries peer args) ∈ after.network)
    (new : Packet.request id src (.appendEntries peer args) ∉ c.network) :
    (after.nodes src).Replicates peer args := by
  rcases (step_traffic taken).packets _ sent with old | ⟨_, _, _, same, _, _, issues⟩ | ⟨_, _, _, same, _⟩
  · exact absurd old new
  · cases same
    cases issues with
    | replicate replicates => exact replicates
  · cases same

/-- In every reachable cluster a leader's next and match indexes stay inside its log, and a replication call that any
step sends is drawn from the sender's log as it then is: the term it gives for the entry before is that entry's, and
the entries are all that follow. -/
theorem leader_replication_well_formed {c : Cluster} (reachable : Reachable c) :
    (∀ node ∈ c.members, (c.nodes node).role = .leader → ∀ peer ∈ (c.nodes node).peers,
      1 ≤ (c.nodes node).nextIndex peer ∧ (c.nodes node).nextIndex peer ≤ (c.nodes node).log.lastIndex + 1 ∧
        (c.nodes node).matchIndex peer ≤ (c.nodes node).log.lastIndex) ∧
    ∀ action after, c.step action = some after → ∀ id src peer args,
      Packet.request id src (.appendEntries peer args) ∈ after.network →
      Packet.request id src (.appendEntries peer args) ∉ c.network →
      (after.nodes src).role = .leader ∧ args.term = (after.nodes src).currentTerm ∧
        args.prevLogIndex = (after.nodes src).nextIndex peer - 1 ∧
        (after.nodes src).log.termAt args.prevLogIndex = some args.prevLogTerm ∧
        args.entries = (after.nodes src).log.rest.drop (args.prevLogIndex - (after.nodes src).log.sentinel.index) := by
  obtain ⟨record, described⟩ := reachable.described
  refine ⟨fun node known leading peer other => described.progress_inside known leading other, ?_⟩
  intro action after taken id src peer args sent new
  obtain ⟨larger, _, describedAfter⟩ := step_described record c after described ⟨action, taken⟩
  have request : RequestOk after.members larger src (.appendEntries peer args) := describedAfter.packets _ sent
  have replicates := step_replicates taken sent new
  obtain ⟨previous, entries⟩ := describedAfter.replicates_log request.src_known replicates
  exact ⟨replicates.leading, replicates.term, replicates.previous, previous, entries⟩

/-- A leader with one committed entry sends a heartbeat to the peer that has the entry too. -/
theorem leader_replication_trio :
    let heartbeat : Packet := .request 8 "a" (.appendEntries "b" ⟨1, "a", 1, 1, [], 1⟩)
    ∃ c after, (boot ["a", "b", "c"] 0).exec commitScript = some c ∧ c.step (.tick "a") = some after ∧
      heartbeat ∈ after.network ∧ heartbeat ∉ c.network ∧ (c.nodes "a").role = .leader ∧
      (c.nodes "a").matchIndex "b" ≤ (c.nodes "a").log.lastIndex ∧ (after.nodes "a").log.termAt 1 = some 1 := by
  intro heartbeat
  have computed : ((boot ["a", "b", "c"] 0).exec commitScript).bind (fun c => (c.step (.tick "a")).map fun after =>
      ((c.nodes "a").role, decide ("b" ∈ (c.nodes "a").peers), decide (heartbeat ∈ after.network),
        decide (heartbeat ∈ c.network))) = some (.leader, true, true, false) := by
    decide +kernel
  simp only [Option.bind_eq_some_iff, Option.map_eq_some_iff, Prod.mk.injEq, decide_eq_true_eq, decide_eq_false_iff_not]
    at computed
  obtain ⟨c, ran, after, taken, leading, known, sent, new⟩ := computed
  have reachable : Reachable c := ⟨_, boot_bootstrapped 0 (by decide) (by decide), exec_runs ran⟩
  have member : "a" ∈ c.members := by
    rw [(exec_runs ran).members]
    decide
  obtain ⟨inside, drawn⟩ := leader_replication_well_formed reachable
  exact ⟨c, after, ran, taken, sent, new, leading, (inside "a" member leading "b" known).2.2,
    (drawn _ after taken 8 "a" "b" _ sent new).2.2.2.1⟩

end Cluster

end ForgeDB.Raft
