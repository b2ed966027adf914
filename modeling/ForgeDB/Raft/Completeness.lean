import ForgeDB.Raft.Handover

/-!
What elections and crashes cannot undo. A committed entry stays with a majority for good, every later
leader has it, a leader only adds to its log, and nobody votes twice in a term.
-/

namespace ForgeDB.Raft

open Consensus

/-- The node has the entry in its log, or has compacted it into the snapshot on its disk. -/
def Node.Keeps (n : Node) (index : Nat) (entry : LogEntry) : Prop :=
  n.log.entryAt index = some entry ∨
    index ≤ n.log.sentinel.index ∧ ∃ snap, n.persister.snapshot = some snap ∧ index ≤ snap.lastIncludedIndex

namespace Described

variable {record : Record} {c : Cluster} {node : String} {index : Nat} {entry : LogEntry}

theorem agreed (described : Described record c) (known : node ∈ c.members)
    (committed : index ≤ (c.nodes node).commitIndex) (held : (c.nodes node).log.entryAt index = some entry) :
    ∃ bound chosen, History.Committed c.members record bound chosen ∧ chosen ≤ (c.nodes node).currentTerm ∧
      index ≤ bound ∧ entryAt (record.log chosen) index = some entry := by
  have own := described.chosen known committed held
  obtain ⟨slot, rfl, _⟩ := Log.entryAt_cases held
  rcases (described.nodes node known).2.settled.reached with zero | ⟨bound, chosen, commit, old, within⟩
  · exact absurd (committed.trans (Nat.le_of_eq zero)) (Nat.not_succ_le_zero _)
  · have inside := committed.trans within
    have present : entryAt (record.log chosen) (_ + slot + 1) = _ :=
      List.getElem?_eq_getElem (Nat.lt_of_succ_le (inside.trans commit.length_le))
    have same := described.sound.chosen_unique own ⟨bound, chosen, commit, inside, present⟩
    exact ⟨bound, chosen, commit, old, inside, same ▸ present⟩

theorem keeps_of_below (described : Described record c) (known : node ∈ c.members) (positive : 0 < index)
    (below : index ≤ (c.nodes node).log.sentinel.index) : (c.nodes node).Keeps index entry :=
  Or.inr ⟨below, described.covered known positive below⟩

theorem leader_keeps (described : Described record c) (known : node ∈ c.members)
    (leads : (c.nodes node).role = .leader)
    (listed : entryAt (record.log (c.nodes node).currentTerm) index = some entry) :
    (c.nodes node).Keeps index entry := by
  cases index with
  | zero => cases listed
  | succ place =>
    rcases Nat.lt_or_ge place (c.nodes node).log.sentinel.index with below | above
    · exact described.keeps_of_below known (Nat.succ_pos place) below
    · left
      obtain ⟨slot, rfl⟩ := Nat.exists_eq_add_of_le above
      have rest := ((described.nodes node known).2.leader leads).rest
      rw [Log.entryAt_rest, show (c.nodes node).log.rest = _ from rest, List.getElem?_drop]
      exact listed

end Described

namespace Cluster

/-- After `commitScript` the third node helps the second to a newer term, and the first does not hear of it. -/
def takeover : List Action := [.tick "b", .deliver 12, .deliver 13]

def grant : Packet := .reply 0 "a" (.requestVote "b" ⟨1, "a", 0, 0⟩) (.requestVote ⟨1, true⟩)

def TakenOver (c later : Cluster) : Prop :=
  (c.nodes "a").role = .leader ∧ (c.nodes "a").currentTerm = 1 ∧ (c.nodes "a").commitIndex = 1 ∧
    (c.nodes "a").log.entryAt 1 = some ⟨1, 1, [7]⟩ ∧ (later.nodes "a").role = .leader ∧
    (later.nodes "a").currentTerm = 1 ∧ (later.nodes "b").role = .leader ∧ (later.nodes "b").currentTerm = 2 ∧
    c.network[2]? = some grant ∧ later.network[2]? = some grant

instance takenOverDecidable (c later : Cluster) : Decidable (TakenOver c later) := inferInstanceAs (Decidable (_ ∧ _))

theorem takeover_runs :
    ∃ c later, (boot ["a", "b", "c"] 0).exec commitScript = some c ∧ c.exec takeover = some later ∧
      TakenOver c later := by
  have seen : (((boot ["a", "b", "c"] 0).exec commitScript).bind fun c =>
      (c.exec takeover).map fun later => decide (TakenOver c later)) = some true := by
    decide +kernel
  obtain ⟨c, done, rest⟩ := Option.bind_eq_some_iff.mp seen
  obtain ⟨later, further, shape⟩ := Option.map_eq_some_iff.mp rest
  exact ⟨c, later, done, further, of_decide_eq_true shape⟩

/-- Leader completeness: whoever leads a term that is not older than the one in which an entry was seen committed keeps
that entry. -/
theorem leader_complete {first c later : Cluster} (boot : first.Bootstrapped) (start : Runs first c)
    (onward : Runs c later) {observer chief : String} (watched : observer ∈ c.members) (known : chief ∈ c.members)
    {index : Nat} {entry : LogEntry} (committed : index ≤ (c.nodes observer).commitIndex)
    (held : (c.nodes observer).log.entryAt index = some entry) (leads : (later.nodes chief).role = .leader)
    (newer : (c.nodes observer).currentTerm ≤ (later.nodes chief).currentTerm) :
    (later.nodes chief).Keeps index entry := by
  obtain ⟨record, _, described⟩ := start.described boot.described
  obtain ⟨larger, grown, describedLater⟩ := onward.described described
  have members := onward.members
  obtain ⟨bound, chosen, commit, old, inside, listed⟩ := described.agreed watched committed held
  have knownLater : chief ∈ later.members := members ▸ known
  have elected := ((describedLater.nodes chief knownLater).2.leader leads).elected
  have led : (larger.leader (later.nodes chief).currentTerm).isSome := by
    rw [show larger.leader (later.nodes chief).currentTerm = _ from elected]
    rfl
  -- The committed log is a part of the log of every term that was led since.
  have sound := describedLater.sound
  rw [members] at sound
  have agree := sound.committed_agree (commit.mono grown) (old.trans newer) led
  apply describedLater.leader_keeps knownLater leads
  rw [agree.entryAt_eq inside]
  exact entryAt_grown (grown.log chosen) listed

theorem leader_complete_takeover :
    ∃ c later, (boot ["a", "b", "c"] 0).exec commitScript = some c ∧ c.exec takeover = some later ∧
      (later.nodes "b").role = .leader ∧ (later.nodes "b").Keeps 1 ⟨1, 1, [7]⟩ := by
  obtain ⟨c, later, done, further, _, term, commit, held, _, _, leads, newer, _⟩ := takeover_runs
  have members := (exec_runs done).members
  refine ⟨c, later, done, further, leads, ?_⟩
  exact leader_complete (boot_bootstrapped 0 (by decide) (by decide)) (exec_runs done) (exec_runs further)
    (show "a" ∈ c.members by rw [members]; decide) (by rw [members]; decide) commit.ge held leads
    (by rw [term, newer]; decide)

/-- A leader appends only: as long as it leads a term it keeps every entry that it has held in it. -/
theorem leader_appends_only {first c later : Cluster} (boot : first.Bootstrapped) (start : Runs first c)
    (onward : Runs c later) {chief : String} (known : chief ∈ c.members) (leads : (c.nodes chief).role = .leader)
    (leadsLater : (later.nodes chief).role = .leader)
    (sameTerm : (c.nodes chief).currentTerm = (later.nodes chief).currentTerm) {index : Nat} {entry : LogEntry}
    (held : (c.nodes chief).log.entryAt index = some entry) : (later.nodes chief).Keeps index entry := by
  obtain ⟨record, _, described⟩ := start.described boot.described
  obtain ⟨larger, grown, describedLater⟩ := onward.described described
  apply describedLater.leader_keeps (onward.members ▸ known) leadsLater
  rw [← sameTerm]
  exact entryAt_grown (grown.log _) (described.leader_entry known leads held)

theorem leader_appends_only_unaware :
    ∃ c later, (boot ["a", "b", "c"] 0).exec commitScript = some c ∧ c.exec takeover = some later ∧
      (later.nodes "a").Keeps 1 ⟨1, 1, [7]⟩ := by
  obtain ⟨c, later, done, further, leads, term, _, held, leadsLater, termLater, _⟩ := takeover_runs
  have known : "a" ∈ c.members := by
    rw [(exec_runs done).members]
    decide
  refine ⟨c, later, done, further, ?_⟩
  exact leader_appends_only (boot_bootstrapped 0 (by decide) (by decide)) (exec_runs done) (exec_runs further) known
    leads leadsLater (term.trans termLater.symm) held

/-- A committed entry is kept by a majority, whose members keep it through all crashes and elections to come. -/
theorem committed_on_majority {first c : Cluster} (boot : first.Bootstrapped) (start : Runs first c)
    {observer : String} (watched : observer ∈ c.members) {index : Nat} {entry : LogEntry}
    (committed : index ≤ (c.nodes observer).commitIndex) (held : (c.nodes observer).log.entryAt index = some entry) :
    ∃ quorum, IsQuorum c.members quorum ∧
      ∀ later, Runs c later → ∀ member ∈ quorum, (later.nodes member).Keeps index entry := by
  obtain ⟨record, _, described⟩ := start.described boot.described
  obtain ⟨bound, chosen, commit, _, inside, listed⟩ := described.agreed watched committed held
  obtain ⟨quorum, isQuorum, accepted⟩ := commit.accepted
  refine ⟨quorum, isQuorum, fun later onward member counted => ?_⟩
  obtain ⟨larger, grown, describedLater⟩ := onward.described described
  have members := onward.members
  have known : member ∈ later.members := members ▸ isQuorum.subset member counted
  obtain ⟨name, ok⟩ := describedLater.nodes member known
  have acked : bound ≤ larger.acked chosen (later.nodes member).core.id := by
    rw [show (later.nodes member).core.id = member from name]
    exact (accepted member counted).trans (grown.acked chosen member)
  have promise := ok.promise
  rw [← Log.window_last, ← Log.window_lastTerm] at promise
  have commitLater := commit.mono grown
  rw [← members] at commitLater
  rcases promise.holds describedLater.sound ok.segment ok.anchored commitLater acked inside with
    below | ⟨slot, rfl, present⟩
  · obtain ⟨_, rfl, _⟩ := Log.entryAt_cases held
    exact describedLater.keeps_of_below known (Nat.succ_pos _) below
  · left
    rw [entryAt_grown (grown.log chosen) listed] at present
    exact (Log.entryAt_rest _ slot).trans present

theorem committed_on_majority_takeover :
    ∃ c later, (boot ["a", "b", "c"] 0).exec commitScript = some c ∧ c.exec takeover = some later ∧
      ∃ quorum, IsQuorum c.members quorum ∧ ∀ member ∈ quorum, (later.nodes member).Keeps 1 ⟨1, 1, [7]⟩ := by
  obtain ⟨c, later, done, further, _, _, commit, held, _⟩ := takeover_runs
  have known : "a" ∈ c.members := by
    rw [(exec_runs done).members]
    decide
  obtain ⟨quorum, isQuorum, keeps⟩ := committed_on_majority (boot_bootstrapped 0 (by decide) (by decide))
    (exec_runs done) known commit.ge held
  exact ⟨c, later, done, further, quorum, isQuorum, keeps later (exec_runs further)⟩

/-- Nobody grants two candidates its vote in one term, whether or not it has crashed in between. -/
theorem votes_once {first c later : Cluster} (boot : first.Bootstrapped) (start : Runs first c) (onward : Runs c later)
    {id other : Nat} {src rival voter : String} {args otherArgs : RequestVoteArgs} {reply otherReply : RequestVoteReply}
    (sent : Packet.reply id src (.requestVote voter args) (.requestVote reply) ∈ c.network)
    (granted : reply.voteGranted = true)
    (sentLater : Packet.reply other rival (.requestVote voter otherArgs) (.requestVote otherReply) ∈ later.network)
    (grantedLater : otherReply.voteGranted = true) (sameTerm : args.term = otherArgs.term) :
    args.candidateID = otherArgs.candidateID := by
  obtain ⟨record, _, described⟩ := start.described boot.described
  obtain ⟨larger, grown, describedLater⟩ := onward.described described
  have vote : record.votes args.term voter = some args.candidateID := ((described.packets _ sent).2 granted).1
  have otherVote : larger.votes otherArgs.term voter = some otherArgs.candidateID :=
    ((describedLater.packets _ sentLater).2 grantedLater).1
  rw [← sameTerm, grown.votes _ _ _ vote] at otherVote
  exact Option.some.inj otherVote

theorem votes_once_takeover :
    ∃ c later, (boot ["a", "b", "c"] 0).exec commitScript = some c ∧ c.exec takeover = some later ∧
      grant ∈ later.network ∧ ∀ id src args reply,
        Packet.reply id src (.requestVote "b" args) (.requestVote reply) ∈ c.network → reply.voteGranted = true →
          args.term = 1 → args.candidateID = "a" := by
  obtain ⟨c, later, done, further, _, _, _, _, _, _, _, _, _, cast⟩ := takeover_runs
  have there := List.mem_of_getElem? cast
  refine ⟨c, later, done, further, there, fun id src args reply sent granted term => ?_⟩
  exact votes_once (boot_bootstrapped 0 (by decide) (by decide)) (exec_runs done) (exec_runs further) sent granted there
    rfl term

end Cluster

end ForgeDB.Raft
