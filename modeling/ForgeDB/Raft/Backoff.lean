import Mathlib.Data.Nat.Find
import Mathlib.Logic.Function.Iterate
import ForgeDB.Raft.Healthy

/-!
Backing off. A leader that is refused tries one entry earlier, down to its own boundary, where it sends its
snapshot, or to the first entry if it has none. Whether this ends in an accepted call depends on the two
boundaries: a peer that has compacted further cannot check an earlier entry.
-/

namespace ForgeDB

def countDown (lower value : Nat) : Nat := if lower < value then value - 1 else value

theorem iterate_countDown (lower value rounds : Nat) :
    (countDown lower)^[rounds] value = if lower < value then max lower (value - rounds) else value := by
  induction rounds with
  | zero =>
    rw [Function.iterate_zero_apply]
    split <;> omega
  | succ rounds ih =>
    rw [Function.iterate_succ_apply', ih, countDown]
    by_cases above : lower < value
    · simp only [above, if_true]
      split <;> omega
    · simp only [above, if_false]

theorem exists_iterate_countDown {holds : Nat → Prop} (lower value : Nat) :
    (∃ rounds, holds ((countDown lower)^[rounds] value)) ↔
      holds value ∨ ∃ met, lower ≤ met ∧ met < value ∧ holds met := by
  simp only [iterate_countDown]
  constructor
  · rintro ⟨rounds, found⟩
    split at found
    · rcases Nat.eq_zero_or_pos rounds with rfl | some
      · rw [Nat.sub_zero, max_eq_right (by omega)] at found
        exact Or.inl found
      · exact Or.inr ⟨_, le_max_left _ _, by omega, found⟩
    · exact Or.inl found
  · rintro (found | ⟨met, above, below, found⟩)
    · refine ⟨0, ?_⟩
      rw [Nat.sub_zero]
      split
      · rw [max_eq_right (by omega)]
        exact found
      · exact found
    · refine ⟨value - met, ?_⟩
      rw [if_pos (by omega), Nat.sub_sub_self below.le, max_eq_right above]
      exact found

namespace Raft

def Reply.success : Reply → Bool
  | .requestVote reply => reply.voteGranted
  | .appendEntries reply => reply.success
  | .installSnapshot reply => reply.success

def answers (peer : String) (pair : Node × Node) : Bool := (pair.2.serve (pair.1.broadcastCall peer)).2.success

/-- One round between a leader and a peer: the call, its handling, and the reply. -/
def exchange (peer : String) (pair : Node × Node) : Node × Node :=
  let call := pair.1.broadcastCall peer
  let (follower, reply) := pair.2.serve call
  ((pair.1.broadcastAppendEntries.1.resume call reply).1, follower)

def Converges (peer : String) (leader follower : Node) : Prop :=
  ∃ rounds, answers peer ((exchange peer)^[rounds] (leader, follower)) = true

def Accepts (leader follower : Node) (next : Nat) : Prop :=
  if next ≤ leader.log.sentinel.index then
    leader.log.sentinel.index ≤ follower.log.sentinel.index ∨ leader.snapshotData.length ≤ maxSnapshotDataSize
  else follower.log.termAt (next - 1) = some ((leader.log.termAt (next - 1)).getD 0)

structure Facing (peer : String) (leader follower : Node) (next : Nat) (pair : Node × Node) : Prop where
  leading : pair.1.role = .leader
  current : pair.2.currentTerm ≤ pair.1.currentTerm
  healthy : pair.2.persister.Healthy
  log : pair.1.log = leader.log
  payload : pair.1.snapshotData = leader.snapshotData
  held : pair.2.log = follower.log
  position : pair.1.nextIndex peer = next

theorem Node.receiveSnapshotChunk_first (n leader : Node) (term : Nat) (snap : Snapshot) :
    (n.receiveSnapshotChunk (leader.sendInstallSnapshotArgs term snap 0)).2 = .rejected ↔
      maxSnapshotDataSize < snap.data.length := by
  obtain ⟨stop, within, chunk⟩ : ∃ stop, stop ≤ snap.data.length ∧ leader.sendInstallSnapshotArgs term snap 0 =
      ⟨term, leader.id, snap.lastIncludedIndex, snap.lastIncludedTerm, snap.data.take stop, true, 0,
        stop == snap.data.length, snap.data.length, checksum (snap.data.take stop)⟩ := by
    refine ⟨if snap.data.length < 0 + leader.snapshotChunkSize then snap.data.length
      else 0 + leader.snapshotChunkSize, by split <;> omega, ?_⟩
    simp only [sendInstallSnapshotArgs, List.drop_zero, Nat.sub_zero]
  rw [chunk, receiveSnapshotChunk]
  by_cases large : maxSnapshotDataSize < snap.data.length
  · simp only [large, if_true]
  · have short : ¬snap.data.length < (List.take stop snap.data).length := by
      rw [List.length_take]
      omega
    simp only [large, if_false, chunkTarget, if_true, ne_eq, not_true_eq_false, List.length_nil, Nat.zero_add, short,
      List.nil_append, iff_false]
    split
    · intro wrong
      cases wrong
    · rename_i whole
      simp only [Bool.not_eq_true', beq_eq_false_iff_ne, ne_eq, not_not] at whole
      rw [whole, List.take_length, if_neg (fun other => other rfl)]
      intro wrong
      cases wrong

section Rounds

variable {peer : String} {leader follower : Node} {next : Nat} {pair : Node × Node}

section

variable (facing : Facing peer leader follower next pair)

include facing

theorem Facing.call : pair.1.broadcastCall peer = if next ≤ leader.log.sentinel.index then
      .installSnapshot peer leader.boundary (pair.1.sendInstallSnapshotArgs pair.1.currentTerm leader.boundary 0)
    else .appendEntries peer (pair.1.appendEntriesArgs peer) := by
  simp only [Node.broadcastCall, Node.boundary, facing.position, facing.log, facing.payload]

theorem Facing.snapshot :
    let served := pair.2.handleInstallSnapshot (pair.1.sendInstallSnapshotArgs pair.1.currentTerm leader.boundary 0)
    (served.2.success = true ↔ leader.log.sentinel.index ≤ follower.log.sentinel.index ∨
      leader.snapshotData.length ≤ maxSnapshotDataSize) ∧
      served.2.term = pair.1.currentTerm ∧ served.1.currentTerm = pair.1.currentTerm ∧
      served.1.persister.Healthy ∧ (served.2.success = false → served.1.log = pair.2.log) := by
  intro served
  have index : (pair.1.sendInstallSnapshotArgs pair.1.currentTerm leader.boundary 0).lastIncludedIndex =
      leader.log.sentinel.index := rfl
  rcases Nat.lt_or_ge follower.log.sentinel.index leader.log.sentinel.index with ahead | behind
  · obtain ⟨term, healthy, replied, outcome⟩ :=
      Node.handleInstallSnapshot_ahead (pair.1.sendInstallSnapshotArgs pair.1.currentTerm leader.boundary 0)
        facing.healthy
        facing.current (by rw [facing.held, index]; exact ahead) rfl
    have refused : _ ↔ maxSnapshotDataSize < leader.snapshotData.length :=
      pair.2.receiveSnapshotChunk_first pair.1 pair.1.currentTerm leader.boundary
    rcases received :
      pair.2.receiveSnapshotChunk (pair.1.sendInstallSnapshotArgs pair.1.currentTerm leader.boundary 0) with
      ⟨m, kind⟩
    rw [received] at refused outcome
    refine ⟨?_, replied, term, healthy, ?_⟩
    · cases kind with
      | rejected =>
        have large := refused.mp rfl
        refine iff_of_false (by rw [outcome.1]; exact Bool.false_ne_true) ?_
        omega
      | incomplete | complete whole =>
        have fits : ¬maxSnapshotDataSize < leader.snapshotData.length := fun large => nomatch refused.mpr large
        exact iff_of_true outcome.1 (Or.inr (by omega))
    · intro failed
      cases kind with
      | rejected => exact congrArg Kept.log outcome.2
      | incomplete | complete whole => exact absurd (failed.symm.trans outcome.1) Bool.false_ne_true
  · obtain ⟨reply, term, healthy, log, _⟩ :=
      Node.handleInstallSnapshot_behind (pair.1.sendInstallSnapshotArgs pair.1.currentTerm leader.boundary 0)
        facing.healthy
        facing.current (by rw [facing.held, index]; exact behind)
    have success : served.2.success = true := congrArg InstallSnapshotReply.success reply
    exact ⟨iff_of_true success (Or.inl behind), congrArg InstallSnapshotReply.term reply, term, healthy, fun _ => log⟩

theorem Facing.append : let served := pair.2.handleAppendEntries (pair.1.appendEntriesArgs peer)
    (served.2.success = true ↔
      follower.log.termAt (next - 1) = some ((leader.log.termAt (next - 1)).getD 0)) ∧
      served.2.term = pair.1.currentTerm ∧
      (served.2.success = false → Node.Following pair.2 pair.1.currentTerm served.1) := by
  intro served
  obtain ⟨reply, refused⟩ :=
    @Node.handleAppendEntries_healthy pair.2 (pair.1.appendEntriesArgs peer) facing.healthy facing.current
  have previous : (pair.1.appendEntriesArgs peer).prevLogIndex = next - 1 := by
    rw [← facing.position]
    rfl
  have term : (pair.1.appendEntriesArgs peer).prevLogTerm = (leader.log.termAt (next - 1)).getD 0 := by
    rw [← facing.position, ← facing.log]
    rfl
  have success := congrArg AppendEntriesReply.success reply
  rw [previous, term, facing.held] at success refused
  refine ⟨?_, congrArg AppendEntriesReply.term reply, fun failed => refused fun found => ?_⟩
  · rw [success]
    exact decide_eq_true_iff
  · rw [success, decide_eq_false_iff_not] at failed
    exact failed found

theorem Facing.answers_iff : answers peer pair = true ↔ Accepts leader follower next := by
  rw [answers, facing.call, Accepts]
  split
  · exact facing.snapshot.1
  · exact facing.append.1

end

theorem Node.sendInstallSnapshotReply_refused {n : Node} {snap : Snapshot} {args : InstallSnapshotArgs}
    {reply : InstallSnapshotReply} (leading : n.role = .leader) (current : n.currentTerm = args.term)
    (same : reply.term = args.term) (failed : reply.success = false) :
    n.sendInstallSnapshotReply peer snap args reply = (n, []) := by
  simp only [sendInstallSnapshotReply, leading, current, same, failed, lt_irrefl, if_false, ne_eq, not_true_eq_false,
    or_self, Bool.not_false, if_true]

theorem Node.sendAppendEntriesReply_refused {n : Node} {args : AppendEntriesArgs} {reply : AppendEntriesReply}
    (leading : n.role = .leader) (current : n.currentTerm = args.term) (same : reply.term = args.term)
    (failed : reply.success = false) :
    (n.sendAppendEntriesReply peer args reply).1 =
      { n with nextIndex := Function.update n.nextIndex peer (countDown 1 (n.nextIndex peer)) } := by
  have ours : ¬(n.role ≠ .leader ∨ n.currentTerm ≠ args.term) := fun either =>
    either.elim (fun other => other leading) (fun other => other current)
  rw [sendAppendEntriesReply, if_neg (by omega), if_neg ours, if_neg (by rw [failed]; exact Bool.false_ne_true),
    countDown]
  split
  · rfl
  · rw [Function.update_eq_self]

theorem Facing.exchange (facing : Facing peer leader follower next pair) (refused : ¬Accepts leader follower next) :
    Facing peer leader follower (countDown (max leader.log.sentinel.index 1) next) (exchange peer pair) := by
  have unanswered := Bool.eq_false_iff.mpr fun answered => refused (facing.answers_iff.mp answered)
  obtain ⟨role, term, log, payload, position, _⟩ := pair.1.maybeAdvanceCommitIndex_frame
  have leading := role.trans facing.leading
  rw [answers, facing.call] at unanswered
  unfold Raft.exchange
  rw [facing.call]
  by_cases behind : next ≤ leader.log.sentinel.index
  · simp only [if_pos behind, Node.serve, Reply.success] at unanswered ⊢
    obtain ⟨_, replied, followed, healthy, kept⟩ := facing.snapshot
    have resumed := @Node.sendInstallSnapshotReply_refused peer pair.1.maybeAdvanceCommitIndex leader.boundary
      (pair.1.sendInstallSnapshotArgs pair.1.currentTerm leader.boundary 0) _ leading term replied unanswered
    simp only [Node.resume, Node.broadcastAppendEntries, resumed]
    rw [countDown, if_neg (by omega)]
    exact ⟨leading, (followed.trans term.symm).le, healthy, log.trans facing.log, payload.trans facing.payload,
      (kept unanswered).trans facing.held, (congrFun position peer).trans facing.position⟩
  · simp only [if_neg behind, Node.serve, Reply.success] at unanswered ⊢
    obtain ⟨_, replied, kept⟩ := facing.append
    have following := kept unanswered
    have resumed := @Node.sendAppendEntriesReply_refused peer pair.1.maybeAdvanceCommitIndex
      (pair.1.appendEntriesArgs peer) _ leading term replied unanswered
    simp only [Node.resume, Node.broadcastAppendEntries, resumed]
    refine ⟨leading, (following.term.trans term.symm).le, following.healthy, log.trans facing.log,
      payload.trans facing.payload, (congrArg Kept.log following.kept).trans facing.held, ?_⟩
    simp only [Function.update_self, position, facing.position, countDown]
    split <;> split <;> omega

theorem Facing.iterate (facing : Facing peer leader follower next pair) (rounds : Nat)
    (refused : ∀ earlier < rounds, ¬Accepts leader follower
      ((countDown (max leader.log.sentinel.index 1))^[earlier] next)) :
    Facing peer leader follower ((countDown (max leader.log.sentinel.index 1))^[rounds] next)
      ((Raft.exchange peer)^[rounds] pair) := by
  induction rounds with
  | zero => exact facing
  | succ rounds ih =>
    rw [Function.iterate_succ_apply', Function.iterate_succ_apply']
    exact (ih fun earlier before => refused earlier (by omega)).exchange (refused rounds (Nat.lt_succ_self _))

theorem Facing.converges_iff (facing : Facing peer leader follower next (leader, follower)) :
    Converges peer leader follower ↔ Accepts leader follower next ∨
      ∃ met, max leader.log.sentinel.index 1 ≤ met ∧ met < next ∧ Accepts leader follower met := by
  rw [← exists_iterate_countDown, Converges]
  constructor
  · rintro ⟨rounds, answered⟩
    by_contra never
    have facing := facing.iterate rounds fun earlier _ found => never ⟨earlier, found⟩
    exact never ⟨rounds, facing.answers_iff.mp answered⟩
  · intro some
    classical
    refine ⟨Nat.find some, ?_⟩
    exact (facing.iterate _ fun earlier before => Nat.find_min some before).answers_iff.mpr (Nat.find_spec some)

end Rounds

section Reachable

open Consensus

variable {members : List String} {record : Record}

theorem CoreOk.termAt_led (sound : History.Sound members record) {c : Core} (ok : CoreOk members record c)
    {term index : Nat} (le : c.currentTerm ≤ term) (led : (record.leader term).isSome)
    (above : c.log.sentinel.index ≤ index) (below : index = c.log.sentinel.index ∨ index ≤ c.commitIndex) :
    c.log.termAt index = termAt (record.log term) index := by
  rcases Nat.eq_or_lt_of_le above with rfl | beyond
  · rw [Log.termAt_sentinel, ok.anchored.termAt_led sound le led]
  · have committed := below.resolve_left beyond.ne'
    have last : c.commitIndex ≤ c.log.lastIndex := by
      have reach := ok.settled.1
      rwa [Log.window_last] at reach
    obtain ⟨value, found⟩ := Log.termAt_of_le above (committed.trans last)
    rw [found, follows_termAt (ok.settled.follows sound le led) beyond committed found]

theorem accepts_boundary (sound : History.Sound members record) {leader follower : Node}
    (leaderOk : CoreOk members record leader.core) (followerOk : CoreOk members record follower.core)
    (leading : leader.role = .leader) (current : follower.currentTerm ≤ leader.currentTerm)
    (above : leader.log.sentinel.index ≤ follower.log.sentinel.index)
    (below : follower.log.sentinel.index ≤ leader.log.lastIndex) :
    Accepts leader follower (follower.log.sentinel.index + 1) := by
  have leads := leaderOk.leader leading
  have led : (record.leader leader.currentTerm).isSome := Option.isSome_iff_exists.mpr ⟨_, leads.elected⟩
  obtain ⟨value, found⟩ := Log.termAt_of_le above below
  have shared := leads.termAt_eq found
  rw [Accepts, if_neg (by omega), Nat.add_sub_cancel, found, Option.getD_some]
  exact (followerOk.termAt_led sound current led (Nat.le_refl _) (Or.inl rfl)).trans shared

theorem accepts_ahead_iff {leader follower : Node} {next : Nat} (inside : next ≤ leader.log.lastIndex + 1)
    (ahead : follower.log.sentinel.index < leader.log.sentinel.index) :
    (Accepts leader follower next ∨
        ∃ met, max leader.log.sentinel.index 1 ≤ met ∧ met < next ∧ Accepts leader follower met) ↔
      leader.snapshotData.length ≤ maxSnapshotDataSize ∨ ∃ index, leader.log.sentinel.index ≤ index ∧ index < next ∧
        follower.log.termAt index = leader.log.termAt index := by
  have snapshot : ∀ met, met ≤ leader.log.sentinel.index →
      (Accepts leader follower met ↔ leader.snapshotData.length ≤ maxSnapshotDataSize) := by
    intro met behind
    rw [Accepts, if_pos behind]
    exact or_iff_right (by omega)
  have entry : ∀ index, leader.log.sentinel.index ≤ index → index < next →
      (Accepts leader follower (index + 1) ↔ follower.log.termAt index = leader.log.termAt index) := by
    intro index above below
    obtain ⟨value, found⟩ := Log.termAt_of_le above (show index ≤ leader.log.lastIndex by omega)
    rw [Accepts, if_neg (by omega), Nat.add_sub_cancel, found, Option.getD_some]
  have decided : ∀ met, met ≤ next → Accepts leader follower met →
      leader.snapshotData.length ≤ maxSnapshotDataSize ∨ ∃ index, leader.log.sentinel.index ≤ index ∧ index < next ∧
        follower.log.termAt index = leader.log.termAt index := by
    intro met within accepted
    rcases Nat.lt_or_ge leader.log.sentinel.index met with above | behind
    · obtain ⟨index, rfl⟩ : ∃ index, met = index + 1 := ⟨met - 1, by omega⟩
      exact Or.inr ⟨index, by omega, by omega, (entry index (by omega) (by omega)).mp accepted⟩
    · exact Or.inl ((snapshot met behind).mp accepted)
  constructor
  · rintro (accepted | ⟨met, _, below, accepted⟩)
    · exact decided next (Nat.le_refl _) accepted
    · exact decided met below.le accepted
  · rintro (fits | ⟨index, above, below, same⟩)
    · rcases Nat.lt_or_ge leader.log.sentinel.index next with above | behind
      · exact Or.inr ⟨_, by omega, above, (snapshot _ (Nat.le_refl _)).mpr fits⟩
      · exact Or.inl ((snapshot next behind).mpr fits)
    · have accepted := (entry index above below).mpr same
      rcases Nat.eq_or_lt_of_le (Nat.succ_le_of_lt below) with last | earlier
      · exact Or.inl (last ▸ accepted)
      · exact Or.inr ⟨index + 1, by omega, earlier, accepted⟩

theorem accepts_behind_iff {leader follower : Node} {next : Nat} (first : 1 ≤ next)
    (behind : leader.log.sentinel.index ≤ follower.log.sentinel.index)
    (boundary : follower.log.sentinel.index < next → Accepts leader follower (follower.log.sentinel.index + 1)) :
    (Accepts leader follower next ∨
        ∃ met, max leader.log.sentinel.index 1 ≤ met ∧ met < next ∧ Accepts leader follower met) ↔
      0 < leader.log.sentinel.index ∨ follower.log.sentinel.index < next := by
  have snapshot : ∀ met, met ≤ leader.log.sentinel.index → Accepts leader follower met := by
    intro met low
    rw [Accepts, if_pos low]
    exact Or.inl behind
  have entry : ∀ met, leader.log.sentinel.index < met → Accepts leader follower met →
      follower.log.sentinel.index < met := by
    intro met high accepted
    rw [Accepts, if_neg (by omega)] at accepted
    have above := (Log.termAt_bounds accepted).1
    omega
  constructor
  · rintro (accepted | ⟨met, above, below, accepted⟩)
    · by_contra neither
      have reached := entry next (by omega) accepted
      omega
    · by_contra neither
      have reached := entry met (by omega) accepted
      omega
  · rintro (compacted | within)
    · rcases Nat.lt_or_ge leader.log.sentinel.index next with above | low
      · exact Or.inr ⟨_, by omega, above, snapshot _ (Nat.le_refl _)⟩
      · exact Or.inl (snapshot next low)
    · rcases Nat.eq_or_lt_of_le (Nat.succ_le_of_lt within) with last | earlier
      · exact Or.inl (last ▸ boundary within)
      · exact Or.inr ⟨_, by omega, earlier, boundary within⟩

namespace Cluster

/-- Backing off ends exactly when the peer has not compacted past the position or the leader has a snapshot, and
the snapshot can be taken or is not needed. A call of the leader's at or below the peer's commit index is
accepted exactly when it is not below the peer's boundary. -/
theorem backoff_ends_iff {c : Cluster} (reachable : Reachable c) {leader peer : String} (known : leader ∈ c.members)
    (there : peer ∈ c.members) (other : peer ≠ leader) (leading : (c.nodes leader).role = .leader)
    (current : (c.nodes peer).currentTerm ≤ (c.nodes leader).currentTerm)
    (healthy : (c.nodes peer).persister.Healthy) :
    (Converges peer (c.nodes leader) (c.nodes peer) ↔
      (0 < (c.nodes leader).log.sentinel.index ∨
        (c.nodes peer).log.sentinel.index < (c.nodes leader).nextIndex peer) ∧
      ((c.nodes leader).log.sentinel.index ≤ (c.nodes peer).log.sentinel.index ∨
        (c.nodes leader).snapshotData.length ≤ maxSnapshotDataSize ∨
        ∃ index, (c.nodes leader).log.sentinel.index ≤ index ∧ index < (c.nodes leader).nextIndex peer ∧
          (c.nodes peer).log.termAt index = (c.nodes leader).log.termAt index)) ∧
    ∀ id args, Packet.request id leader (.appendEntries peer args) ∈ c.network →
      args.term = (c.nodes leader).currentTerm → args.prevLogIndex ≤ (c.nodes peer).commitIndex →
      (((c.nodes peer).handleAppendEntries args).2.success = true ↔
        (c.nodes peer).log.sentinel.index ≤ args.prevLogIndex) := by
  obtain ⟨record, described⟩ := reachable.described
  have sound := described.sound
  obtain ⟨leaderId, leaderOk⟩ := described.nodes leader known
  obtain ⟨_, followerOk⟩ := described.nodes peer there
  have leads := leaderOk.leader leading
  have led : (record.leader (c.nodes leader).currentTerm).isSome := Option.isSome_iff_exists.mpr ⟨_, leads.elected⟩
  have isPeer : peer ∈ (c.nodes leader).peers := by
    refine leaderOk.others.mem_iff.mpr ((List.mem_erase_of_ne ?_).mpr there)
    rw [show (c.nodes leader).core.id = leader from leaderId]
    exact other
  obtain ⟨first, inside⟩ : 1 ≤ (c.nodes leader).nextIndex peer ∧
      (c.nodes leader).nextIndex peer ≤ (c.nodes leader).log.lastIndex + 1 := by
    have bounds := leads.next peer isPeer
    rwa [leads.length_eq] at bounds
  refine ⟨?_, fun id args sent same committed => ?_⟩
  · have facing : Facing peer (c.nodes leader) (c.nodes peer) ((c.nodes leader).nextIndex peer)
        (c.nodes leader, c.nodes peer) := ⟨leading, current, healthy, rfl, rfl, rfl, rfl⟩
    rw [facing.converges_iff]
    rcases Nat.lt_or_ge (c.nodes peer).log.sentinel.index (c.nodes leader).log.sentinel.index with ahead | behind
    · rw [accepts_ahead_iff inside ahead, and_iff_right (Or.inl (Nat.zero_lt_of_lt ahead)),
        or_iff_right (Nat.not_le_of_lt ahead)]
    · rw [accepts_behind_iff first behind fun within =>
        accepts_boundary sound leaderOk followerOk leading current behind (by omega)]
      exact (and_iff_left (Or.inl behind)).symm
  · obtain ⟨_, _, _, _, _, previous, _⟩ := described.packets _ sent
    rw [same] at previous
    obtain ⟨reply, _⟩ := Node.handleAppendEntries_healthy healthy (current.trans same.ge)
    rw [congrArg AppendEntriesReply.success reply, decide_eq_true_iff]
    constructor
    · exact fun found => (Log.termAt_bounds found).1
    · intro above
      exact (followerOk.termAt_led sound current led above (Or.inr committed)).trans previous

/-- A leader with two entries is refused twice by an empty peer, and told so once. The peer then catches up,
applies and compacts both entries, and at last the given replies come in. -/
def compactedScript (late : List Action) : List Action :=
  [.tick "a", .deliver 0, .deliver 1, .propose "a" [7], .restart "a" (bootOptions ["a", "b"] 1 "a"),
    .tick "a", .deliver 4, .deliver 5, .tick "a", .deliver 6, .deliver 7, .deliver 8,
    .propose "a" [8], .deliver 10, .deliver 11, .tick "a", .deliver 12,
    .markApplied "b" 2, .createSnapshot "b" 2 [9]] ++ late ++ [.tick "a"]

def compacted (late : List Action) : Cluster := ((boot ["a", "b"] 1).exec (compactedScript late)).getD (boot [] 1)

theorem compacted_reachable {late : List Action}
    (runs : ((boot ["a", "b"] 1).exec (compactedScript late)).isSome = true) : Reachable (compacted late) := by
  obtain ⟨c, done⟩ := Option.isSome_iff_exists.mp runs
  refine ⟨boot ["a", "b"] 1, boot_bootstrapped 1 (by decide) (by decide), ?_⟩
  rw [compacted, done]
  exact exec_runs done

theorem backoff_ends_compacted : Converges "b" ((compacted []).nodes "a") ((compacted []).nodes "b") :=
  (backoff_ends_iff (compacted_reachable (by decide +kernel)) (by decide +kernel) (by decide +kernel) (by decide)
    (by decide +kernel) (by decide +kernel)
    (by decide +kernel : true ∉ ((compacted []).nodes "b").persister.faults)).1.mpr
    ⟨Or.inr (by decide +kernel), Or.inl (by decide +kernel)⟩

def overshot : Cluster := compacted [.deliver 9]

theorem not_converges {leader follower : Node} {peer : String} (leading : leader.role = .leader)
    (current : follower.currentTerm ≤ leader.currentTerm) (healthy : follower.persister.Healthy)
    (first : 1 ≤ leader.nextIndex peer) (whole : leader.log.sentinel.index = 0)
    (past : leader.nextIndex peer ≤ follower.log.sentinel.index) : ¬Converges peer leader follower := by
  have facing : Facing peer leader follower (leader.nextIndex peer) (leader, follower) :=
    ⟨leading, current, healthy, rfl, rfl, rfl, rfl⟩
  rw [facing.converges_iff, accepts_behind_iff first (by omega) (by omega)]
  omega

/-- With the second refusal in late, the leader asks for entries its peer has compacted, for ever. -/
theorem overshot_never_ends :
    Reachable overshot ∧ (overshot.nodes "a").role = .leader ∧
      (overshot.nodes "b").currentTerm = (overshot.nodes "a").currentTerm ∧
      (overshot.nodes "b").persister.faults = [] ∧ ¬Converges "b" (overshot.nodes "a") (overshot.nodes "b") ∧
      ∃ id args, Packet.request id "a" (.appendEntries "b" args) ∈ overshot.network ∧
        args.term = (overshot.nodes "a").currentTerm ∧ args.prevLogIndex ≤ (overshot.nodes "b").commitIndex ∧
        ((overshot.nodes "b").handleAppendEntries args).2.success = false := by
  have leading : (overshot.nodes "a").role = .leader := by decide +kernel
  have current : (overshot.nodes "b").currentTerm = (overshot.nodes "a").currentTerm := by decide +kernel
  have healthy : (overshot.nodes "b").persister.faults = [] := by decide +kernel
  have stuck : ¬Converges "b" (overshot.nodes "a") (overshot.nodes "b") :=
    not_converges leading current.le (by rw [Persister.Healthy, healthy]; exact List.not_mem_nil)
      (by decide +kernel) (by decide +kernel) (by decide +kernel)
  exact ⟨compacted_reachable (by decide +kernel), leading, current, healthy, stuck, 8,
    ⟨2, "a", 1, 1, [⟨2, 2, [8]⟩], 2⟩, by decide +kernel, by decide +kernel, by decide +kernel, by decide +kernel⟩

end Cluster

end Reachable

end Raft

end ForgeDB
