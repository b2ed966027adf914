import ForgeDB.Consensus.Commitment
import ForgeDB.Raft.Cluster

/-!
The safety invariant of the cluster. A record of what every term has seen stands beside the
cluster, and each node and each packet is described relative to that record alone. The record
only grows, so a description survives whatever the other nodes do.
-/

namespace ForgeDB.Raft

open Consensus

abbrev Record := History String LogEntry

structure Core where
  id : String
  peers : List String
  currentTerm : Nat
  votedFor : String
  log : Log
  commitIndex : Nat
  role : Role
  votesReceived : List String
  nextIndex : String → Nat
  matchIndex : String → Nat
  state : Option PersistentState
  snapshot : Option Snapshot

def Node.core (n : Node) : Core :=
  { id := n.id
    peers := n.peers
    currentTerm := n.currentTerm
    votedFor := n.votedFor
    log := n.log
    commitIndex := n.commitIndex
    role := n.role
    votesReceived := n.votesReceived
    nextIndex := n.nextIndex
    matchIndex := n.matchIndex
    state := n.persister.state
    snapshot := n.persister.snapshot }

def Numbered (record : Record) : Prop :=
  ∀ term slot entry, (record.log term)[slot]? = some entry → entry.index = slot + 1

/-- A candidate stands with the log it announced, and every vote it counts was cast for it. -/
structure CandidateOk (members : List String) (record : Record) (c : Core) : Prop where
  positive : 0 < c.currentTerm
  ticket : record.ticket c.currentTerm c.id = (c.log.lastIndex, c.log.lastTerm)
  distinct : c.votesReceived.Nodup
  backed : ∀ voter ∈ c.votesReceived, voter ∈ members ∧ record.votes c.currentTerm voter = some c.id ∧
    ((record.leader c.currentTerm).isSome ∨
      record.Ballot voter c.currentTerm c.log.lastIndex c.log.lastTerm)

/-- A leader's log is the log of its term, and what it knows of its peers is true. -/
structure LeaderOk (record : Record) (c : Core) : Prop where
  positive : 0 < c.currentTerm
  elected : record.leader c.currentTerm = some c.id
  rest : c.log.rest = (record.log c.currentTerm).drop c.log.sentinel.index
  base : termAt (record.log c.currentTerm) c.log.sentinel.index = some c.log.sentinel.term
  committed : record.committed c.currentTerm = c.commitIndex
  accepted : record.acked c.currentTerm c.id = (record.log c.currentTerm).length
  matched : ∀ peer ∈ c.peers, c.matchIndex peer ≤ record.acked c.currentTerm peer ∨ c.matchIndex peer ≤ c.commitIndex
  next : ∀ peer ∈ c.peers, 1 ≤ c.nextIndex peer ∧ c.nextIndex peer ≤ (record.log c.currentTerm).length + 1

/-- The disk holds the node's term, vote and log, before which it may still hold entries that a
snapshot covers. -/
def Core.Durable (c : Core) : Prop :=
  ∃ covered, c.state.getD ⟨0, "", []⟩ = ⟨c.currentTerm, c.votedFor, covered ++ c.log.rest⟩ ∧
    ∀ entry ∈ covered, entry.index ≤ c.log.sentinel.index ∧ c.snapshot.isSome

theorem Core.Durable.of_saved {c : Core} (saved : c.state = some ⟨c.currentTerm, c.votedFor, c.log.rest⟩) :
    c.Durable :=
  ⟨[], by rw [saved]; rfl, fun entry present => by cases present⟩

structure CoreOk (members : List String) (record : Record) (c : Core) : Prop where
  distinct : members.Nodup
  member : c.id ∈ members
  named : c.id ≠ ""
  others : c.peers.Perm (members.erase c.id)
  durable : c.Durable
  unsaved : c.snapshot = none → c.log.sentinel.index = 0 ∧ c.log.sentinel.term = 0
  saved : ∀ snap, c.snapshot = some snap →
    c.log.sentinel.index ≤ snap.lastIncludedIndex ∧ 0 < snap.lastIncludedIndex ∧
      Anchored members record snap.lastIncludedIndex snap.lastIncludedTerm c.currentTerm
  segment : c.log.window.Segment record
  anchored : Anchored members record c.log.sentinel.index c.log.sentinel.term c.currentTerm
  bounded : ∀ entry ∈ c.log.rest, entry.term ≤ c.currentTerm
  settled : Settled members record c.log.window c.commitIndex c.currentTerm
  promise : Promise record c.id c.log.lastIndex c.log.lastTerm c.currentTerm
  accounted : ∀ term, 0 < record.acked term c.id → term ≤ c.currentTerm
  unvoted : ∀ term, c.currentTerm < term → record.votes term c.id = none
  voted : record.votes c.currentTerm c.id = if c.votedFor = "" then none else some c.votedFor
  unled : ∀ term, record.leader term = some c.id →
    term ≤ c.currentTerm ∧ (term = c.currentTerm → c.role ≠ .candidate)
  stands : c.role ≠ .follower → c.votedFor = c.id
  candidate : c.role = .candidate → CandidateOk members record c
  leader : c.role = .leader → LeaderOk record c

def RequestOk (members : List String) (record : Record) (src : String) : Call → Prop
  | .requestVote peer args => peer ∈ members ∧ peer ≠ src ∧ args.candidateID = src ∧ src ∈ members ∧
    record.votes args.term src = some src ∧ record.ticket args.term src = (args.lastLogIndex, args.lastLogTerm)
  | .appendEntries peer args => peer ∈ members ∧ peer ≠ src ∧ args.leaderID = src ∧ src ∈ members ∧
    record.leader args.term = some src ∧
    termAt (record.log args.term) args.prevLogIndex = some args.prevLogTerm ∧
    args.prevLogIndex + args.entries.length ≤ (record.log args.term).length ∧
    (∀ slot, slot < args.entries.length →
      (record.log args.term)[args.prevLogIndex + slot]? = args.entries[slot]?) ∧
    Reached members record args.leaderCommit args.term
  | .installSnapshot peer snap args => peer ∈ members ∧ peer ≠ src ∧ args.leaderID = src ∧ src ∈ members ∧
    record.leader args.term = some src ∧
    args.lastIncludedIndex = snap.lastIncludedIndex ∧ args.lastIncludedTerm = snap.lastIncludedTerm ∧
    Anchored members record snap.lastIncludedIndex snap.lastIncludedTerm args.term ∧
    termAt (record.log args.term) snap.lastIncludedIndex = some snap.lastIncludedTerm

/-- The callee holds `position` of the log of `term`, or it no longer matters. -/
def Held (record : Record) (term : Nat) (peer : String) (position : Nat) : Prop :=
  position ≤ record.acked term peer ∨ position ≤ record.committed term

/-- A reply that grants or accepts something is backed by what the callee has recorded. -/
def ReplyOk (record : Record) : Call → Reply → Prop
  | .requestVote peer args, .requestVote reply => reply.voteGranted = true →
    record.votes args.term peer = some args.candidateID ∧
      ((record.leader args.term).isSome ∨ record.Ballot peer args.term args.lastLogIndex args.lastLogTerm)
  | .appendEntries peer args, .appendEntries reply => reply.success = true →
    Held record args.term peer (args.prevLogIndex + args.entries.length)
  | .installSnapshot peer snap args, .installSnapshot reply => reply.success = true → args.final = true →
    Held record args.term peer snap.lastIncludedIndex
  | _, _ => True

def PacketOk (members : List String) (record : Record) : Packet → Prop
  | .request _ src call => RequestOk members record src call
  | .reply _ src call reply => RequestOk members record src call ∧ ReplyOk record call reply

structure Described (record : Record) (c : Cluster) : Prop where
  named : "" ∉ c.members
  sound : History.Sound c.members record
  numbered : Numbered record
  nodes : ∀ node ∈ c.members, (c.nodes node).id = node ∧ CoreOk c.members record (c.nodes node).core
  packets : ∀ packet ∈ c.network, PacketOk c.members record packet

section Stability

variable {members : List String} {record larger : Record}

theorem RequestOk.peer_known {src : String} {call : Call} (ok : RequestOk members record src call) :
    call.peer ∈ members := by
  cases call <;> exact ok.1

theorem RequestOk.src_known {src : String} {call : Call} (ok : RequestOk members record src call) :
    src ∈ members := by
  cases call <;> exact ok.2.2.2.1

theorem CandidateOk.mono {c : Core} (sound : History.Sound members record) (grown : record ≤ larger)
    (spared : History.Spares record larger c.id) (ok : CandidateOk members record c) :
    CandidateOk members larger c where
  positive := ok.positive
  ticket := (spared.ticket _).trans ok.ticket
  distinct := ok.distinct
  backed voter counted := by
    obtain ⟨known, vote, support⟩ := ok.backed voter counted
    refine ⟨known, grown.votes _ _ _ vote, ?_⟩
    rcases support with led | ballot
    · exact Or.inl (grown.elected led)
    · exact Or.inr (ballot.mono sound grown (by rw [vote]; rfl))

theorem LeaderOk.mono {c : Core} (grown : record ≤ larger) (spared : History.Spares record larger c.id)
    (ok : LeaderOk record c) : LeaderOk larger c where
  positive := ok.positive
  elected := grown.leader _ _ ok.elected
  rest := by rw [spared.log _ ok.elected, ← ok.rest]
  base := by rw [spared.log _ ok.elected, ← ok.base]
  committed := (spared.committed _ ok.elected).trans ok.committed
  accepted := by rw [spared.acked, spared.log _ ok.elected, ok.accepted]
  matched peer known := (ok.matched peer known).imp (fun le => le.trans (grown.acked _ _)) id
  next peer known := by
    rw [spared.log _ ok.elected]
    exact ok.next peer known

theorem CoreOk.mono {c : Core} (sound : History.Sound members record) (grown : record ≤ larger)
    (spared : History.Spares record larger c.id) (ok : CoreOk members record c) : CoreOk members larger c where
  distinct := ok.distinct
  member := ok.member
  named := ok.named
  others := ok.others
  durable := ok.durable
  unsaved := ok.unsaved
  saved snap present := (ok.saved snap present).imp_right (And.imp_right (Anchored.mono grown))
  segment := ok.segment.mono grown
  anchored := ok.anchored.mono grown
  bounded := ok.bounded
  settled := ok.settled.mono grown
  promise := ok.promise.mono sound grown (fun _ _ _ accepted _ => by rwa [spared.acked] at accepted)
  accounted term accepted := ok.accounted term (by rwa [spared.acked] at accepted)
  unvoted term newer := (spared.votes term).trans (ok.unvoted term newer)
  voted := (spared.votes _).trans ok.voted
  unled term known := ok.unled term (spared.leader term known)
  stands := ok.stands
  candidate standing := (ok.candidate standing).mono sound grown spared
  leader leading := (ok.leader leading).mono grown spared

theorem RequestOk.mono {src : String} {call : Call} (grown : record ≤ larger)
    (ok : RequestOk members record src call) : RequestOk members larger src call := by
  cases call with
  | requestVote peer args =>
    obtain ⟨known, other, same, sender, vote, stand⟩ := ok
    refine ⟨known, other, same, sender, grown.votes _ _ _ vote, ?_⟩
    rw [grown.ticket _ _ (by rw [vote]; rfl), stand]
  | appendEntries peer args =>
    obtain ⟨known, other, same, sender, elected, previous, inside, entries, reached⟩ := ok
    refine ⟨known, other, same, sender, grown.leader _ _ elected, termAt_grown (grown.log _) previous,
      inside.trans (grown.log _).length_le, fun slot within => ?_, reached.mono grown⟩
    rw [← entries slot within, ← Agree.of_grown (grown.log args.term) _ (by omega)]
  | installSnapshot peer snap args =>
    obtain ⟨known, other, same, sender, elected, index, term, anchored, found⟩ := ok
    exact ⟨known, other, same, sender, grown.leader _ _ elected, index, term, anchored.mono grown,
      termAt_grown (grown.log _) found⟩

theorem Held.mono {term position : Nat} {peer : String} (grown : record ≤ larger)
    (held : Held record term peer position) : Held larger term peer position :=
  held.imp (fun le => le.trans (grown.acked _ _)) (fun le => le.trans (grown.committed _))

theorem ReplyOk.mono {call : Call} {reply : Reply} (sound : History.Sound members record)
    (grown : record ≤ larger) (ok : ReplyOk record call reply) : ReplyOk larger call reply := by
  cases call <;> cases reply <;> first | trivial | skip
  · intro granted
    obtain ⟨vote, support⟩ := ok granted
    refine ⟨grown.votes _ _ _ vote, ?_⟩
    rcases support with led | ballot
    · exact Or.inl (grown.elected led)
    · exact Or.inr (ballot.mono sound grown (by rw [vote]; rfl))
  · exact fun success => (ok success).mono grown
  · exact fun success final => (ok success final).mono grown

theorem PacketOk.mono {packet : Packet} (sound : History.Sound members record) (grown : record ≤ larger)
    (ok : PacketOk members record packet) : PacketOk members larger packet := by
  cases packet with
  | request id src call => exact RequestOk.mono grown ok
  | reply id src call reply => exact ⟨RequestOk.mono grown ok.1, ReplyOk.mono sound grown ok.2⟩

end Stability

structure Evolution (members : List String) (record larger : Record) (member : String) : Prop where
  grown : record ≤ larger
  sound : History.Sound members larger
  numbered : Numbered larger
  spared : ∀ other, other ≠ member → History.Spares record larger other

theorem Evolution.refl {members : List String} {record : Record} (sound : History.Sound members record)
    (numbered : Numbered record) (member : String) : Evolution members record record member where
  grown := le_refl record
  sound := sound
  numbered := numbered
  spared _ _ := History.Spares.refl record _

theorem Evolution.trans {members : List String} {first second third : Record} {member : String}
    (left : Evolution members first second member) (right : Evolution members second third member) :
    Evolution members first third member where
  grown := left.grown.trans right.grown
  sound := right.sound
  numbered := right.numbered
  spared other different := (left.spared other different).trans left.grown (right.spared other different)

end ForgeDB.Raft
