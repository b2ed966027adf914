import ForgeDB.Raft.Replication

/-!
Every method of a node keeps the invariant: whatever it saves, answers or sends, the record can
grow so that the node, its reply and its calls are described by it.
-/

namespace ForgeDB.Raft

open Consensus

/-- The record can grow by the work of `n` so that it describes `after`, and `said` holds of it. -/
def Evolves (members : List String) (record : Record) (n after : Node) (said : Record → Prop) : Prop :=
  ∃ larger, Evolution members record larger n.id ∧ CoreOk members larger after.core ∧ after.id = n.id ∧ said larger

section

variable {members : List String} {record : Record} {n : Node}

theorem Evolves.still {after : Node} {said : Record → Prop} (sound : History.Sound members record)
    (numbered : Numbered record) (ok : CoreOk members record after.core) (same : after.id = n.id)
    (holds : said record) : Evolves members record n after said :=
  ⟨record, Evolution.refl sound numbered n.id, ok, same, holds⟩

theorem Evolves.weaken {after : Node} {said weaker : Record → Prop} (imp : ∀ larger, said larger → weaker larger)
    (moves : Evolves members record n after said) : Evolves members record n after weaker := by
  obtain ⟨larger, evolution, ok, same, holds⟩ := moves
  exact ⟨larger, evolution, ok, same, imp larger holds⟩

theorem Evolves.recore {after other : Node} {said : Record → Prop} (same : other.core = after.core)
    (moves : Evolves members record n after said) : Evolves members record n other said := by
  obtain ⟨larger, evolution, ok, id, holds⟩ := moves
  exact ⟨larger, evolution, by rw [same]; exact ok, (congrArg Core.id same).trans id, holds⟩

theorem Evolves.bind {mid after : Node} {said then_ : Record → Prop}
    (moves : Evolves members record n mid said)
    (next : ∀ larger, record ≤ larger → History.Sound members larger → Numbered larger →
      CoreOk members larger mid.core → said larger → Evolves members larger mid after then_) :
    Evolves members record n after then_ := by
  obtain ⟨larger, evolution, ok, same, holds⟩ := moves
  obtain ⟨final, evolution', ok', same', holds'⟩ :=
    next larger evolution.grown evolution.sound evolution.numbered ok holds
  rw [same] at evolution'
  exact ⟨final, evolution.trans evolution', ok', same'.trans same, holds'⟩

def CallsOk (members : List String) (src : String) (calls : List Call) (record : Record) : Prop :=
  ∀ call ∈ calls, RequestOk members record src call

theorem callsOk_nil {src : String} : CallsOk members src [] record :=
  fun call started => by cases started

namespace Node

theorem becomeFollower_core (n : Node) (term : Nat) :
    ((n.becomeFollower term).2 = false ∧ (n.becomeFollower term).1.core = n.core) ∨
      ((n.becomeFollower term).2 = true ∧ (n.becomeFollower term).1.core = n.core.stepDown term) := by
  rcases persist_cases { n with currentTerm := term, votedFor := "" } with ⟨later, same⟩ | ⟨later, same⟩
  · refine Or.inl ⟨?_, ?_⟩ <;> simp only [becomeFollower, same] <;> rfl
  · refine Or.inr ⟨?_, ?_⟩ <;> simp only [becomeFollower, same, if_true, resetElectionTimer_core]
    rfl

theorem observeTerm_core (n : Node) (term : Nat) :
    ((n.observeTerm term).1.core = n.core ∨
        n.currentTerm < term ∧ (n.observeTerm term).1.core = n.core.stepDown term) ∧
      ((n.observeTerm term).2 = true → (n.observeTerm term).1.currentTerm = term) := by
  unfold observeTerm
  by_cases newer : n.currentTerm < term
  · simp only [if_pos newer]
    rcases n.becomeFollower_core term with ⟨failed, same⟩ | ⟨done, same⟩
    · exact ⟨Or.inl same, fun current => by simp only [failed, Bool.false_and] at current; cases current⟩
    · exact ⟨Or.inr ⟨newer, same⟩, fun _ => congrArg Core.currentTerm same⟩
  · simp only [if_neg newer]
    refine ⟨Or.inl trivial, fun current => ?_⟩
    simp only [Bool.true_and, Bool.not_eq_true', decide_eq_false_iff_not] at current
    omega

theorem follow_core (n : Node) (leaderID : String) :
    (n.follow leaderID).core = { n.core with role := .follower } := by
  rw [follow, resetElectionTimer_core]
  rfl

theorem handleRequestVote_core (n : Node) (args : RequestVoteArgs) :
    ((n.handleRequestVote args).2.voteGranted = false ∧
        (n.handleRequestVote args).1.core = (n.observeTerm args.term).1.core) ∨
      ((n.observeTerm args.term).1.currentTerm = args.term ∧
        ((n.observeTerm args.term).1.votedFor = "" ∨ (n.observeTerm args.term).1.votedFor = args.candidateID) ∧
        logIsUpToDate args.lastLogIndex args.lastLogTerm (n.observeTerm args.term).1.log.lastIndex
          (n.observeTerm args.term).1.log.lastTerm = true ∧
        (n.handleRequestVote args).1.core = (n.observeTerm args.term).1.core.vote args.candidateID) := by
  have current := (n.observeTerm_core args.term).2
  rcases observed : n.observeTerm args.term with ⟨m, accepted⟩
  rw [observed] at current
  simp only at current
  cases accepted with
  | false => exact Or.inl ⟨by simp [handleRequestVote, observed], by simp [handleRequestVote, observed]⟩
  | true =>
    by_cases free : m.votedFor = "" ∨ m.votedFor = args.candidateID
    · cases upToDate : logIsUpToDate args.lastLogIndex args.lastLogTerm m.log.lastIndex m.log.lastTerm with
      | false =>
        exact Or.inl ⟨by simp [handleRequestVote, observed, upToDate], by simp [handleRequestVote, observed, upToDate]⟩
      | true =>
        have canVote : (m.votedFor == "" || m.votedFor == args.candidateID) = true := by
          simpa only [Bool.or_eq_true, beq_iff_eq] using free
        rcases persist_cases { m with votedFor := args.candidateID } with ⟨later, same⟩ | ⟨later, same⟩
        · left
          simp only [handleRequestVote, observed, canVote, upToDate, same]
          exact ⟨rfl, rfl⟩
        · right
          refine ⟨current rfl, free, rfl, ?_⟩
          simp only [handleRequestVote, observed, canVote, upToDate, same]
          simp only [Bool.not_true, Bool.or_self, Bool.false_eq_true, if_false, if_true, resetElectionTimer_core]
          rfl
    · have cannot : (m.votedFor == "" || m.votedFor == args.candidateID) = false := by
        simpa only [Bool.or_eq_false_iff, beq_eq_false_iff_ne, ne_eq, not_or] using free
      left
      simp only [handleRequestVote, observed, cannot]
      exact ⟨rfl, rfl⟩

theorem maybeAdvanceCommitIndexFrom_cases (n : Node) (top : Nat) :
    n.maybeAdvanceCommitIndexFrom top = n ∨
      ∃ index, n.commitIndex < index ∧ n.log.termAt index = some n.currentTerm ∧
        n.majority ≤ n.replicas index ∧
        n.maybeAdvanceCommitIndexFrom top = { n with commitIndex := index }.notifyCommit := by
  induction top with
  | zero => exact Or.inl rfl
  | succ top ih =>
    rw [maybeAdvanceCommitIndexFrom]
    by_cases reached : top + 1 ≤ n.commitIndex
    · exact Or.inl (if_pos reached)
    · rw [if_neg reached]
      by_cases own : n.log.termAt (top + 1) = some n.currentTerm
      · rw [if_neg (not_not_intro own)]
        by_cases enough : n.majority ≤ n.replicas (top + 1)
        · exact Or.inr ⟨top + 1, by omega, own, enough, if_pos enough⟩
        · rw [if_neg enough]
          exact ih
      · rw [if_pos own]
        exact ih

theorem raised_core (n : Node) (leaderCommit lastNew : Nat) :
    (if n.commitIndex < leaderCommit ∧ n.commitIndex < (if lastNew < leaderCommit then lastNew else leaderCommit) then
      { n with commitIndex := if lastNew < leaderCommit then lastNew else leaderCommit }.notifyCommit else n).core =
      { n.core with commitIndex := max n.commitIndex (min leaderCommit lastNew) } := by
  have least : (if lastNew < leaderCommit then lastNew else leaderCommit) = min leaderCommit lastNew := by
    split <;> omega
  rw [least]
  by_cases higher : n.commitIndex < leaderCommit ∧ n.commitIndex < min leaderCommit lastNew
  · rw [if_pos higher, Nat.max_eq_right higher.2.le]
    rfl
  · rw [if_neg higher, Nat.max_eq_left (by omega)]
    rfl

theorem handleAppendEntries_core (n : Node) (args : AppendEntriesArgs) :
    ((n.handleAppendEntries args).2.success = false ∧
        ((n.handleAppendEntries args).1.core = (n.observeTerm args.term).1.core ∨
          (n.handleAppendEntries args).1.core = { (n.observeTerm args.term).1.core with role := .follower })) ∨
      ((n.observeTerm args.term).1.currentTerm = args.term ∧
        (n.observeTerm args.term).1.log.termAt args.prevLogIndex = some args.prevLogTerm ∧
        (n.handleAppendEntries args).1.core = (n.observeTerm args.term).1.core.accept args) := by
  have current := (n.observeTerm_core args.term).2
  rcases observed : n.observeTerm args.term with ⟨m, accepted⟩
  rw [observed] at current
  simp only at current
  cases accepted with
  | false => exact Or.inl ⟨by simp [handleAppendEntries, observed], Or.inl (by simp [handleAppendEntries, observed])⟩
  | true =>
    have followed := m.follow_core args.leaderID
    generalize shape : m.follow args.leaderID = f at followed
    have sameLog : f.log = m.log := congrArg Core.log followed
    have sameTerm : f.currentTerm = m.currentTerm := congrArg Core.currentTerm followed
    by_cases found : m.log.termAt args.prevLogIndex = some args.prevLogTerm
    · have found' : ¬(f.log.termAt args.prevLogIndex ≠ some args.prevLogTerm) := by
        rw [sameLog]
        exact not_not_intro found
      have sameAccept : f.core.accept args = m.core.accept args := by
        rw [followed]
        rfl
      rcases taken : f.log.appendAfter args.prevLogIndex args.entries with ⟨log, changed⟩
      have taken' : f.core.log.appendAfter args.prevLogIndex args.entries = (log, changed) := taken
      cases changed with
      | false =>
        have unchanged : log = f.log := by
          have kept := Log.appendAfterFrom_unchanged (congrArg Prod.snd taken)
          rw [← kept]
          exact (congrArg Prod.fst taken).symm
        right
        refine ⟨current rfl, found, ?_⟩
        rw [← sameAccept]
        simp only [handleAppendEntries, observed, shape, if_neg found', taken, Core.accept, taken', unchanged]
        refine (raised_core f _ _).trans ?_
        have role : f.role = .follower := congrArg Core.role followed
        simp only [core, role]
        rfl
      | true =>
        rcases persist_cases { f with log := log } with ⟨later, same⟩ | ⟨later, same⟩
        · left
          simp only [handleAppendEntries, observed, shape, if_neg found', taken, same]
          exact ⟨rfl, Or.inr followed⟩
        · right
          refine ⟨current rfl, found, ?_⟩
          rw [← sameAccept]
          simp only [handleAppendEntries, observed, shape, if_neg found', taken, same, Core.accept, taken']
          refine (raised_core _ _ _).trans ?_
          have role : f.role = .follower := congrArg Core.role followed
          simp only [core, role]
          rfl
    · have missing : f.log.termAt args.prevLogIndex ≠ some args.prevLogTerm := by
        rw [sameLog]
        exact found
      left
      simp only [handleAppendEntries, observed, shape, if_pos missing]
      exact ⟨rfl, Or.inr followed⟩

theorem createSnapshot_core (n : Node) (index : Nat) (data : List UInt8) :
    (n.createSnapshot index data).1.core = n.core ∨
      ∃ term, n.log.sentinel.index < index ∧ index ≤ n.commitIndex ∧ n.log.termAt index = some term ∧
        ((n.createSnapshot index data).1.core = { n.core with snapshot := some ⟨index, term, data⟩ } ∨
          (n.createSnapshot index data).1.core =
            { n.core with
              snapshot := some ⟨index, term, data⟩
              log := ⟨⟨index, term, []⟩, n.log.rest.drop (index - n.log.sentinel.index)⟩
              state := some ⟨n.currentTerm, n.votedFor, n.log.rest.drop (index - n.log.sentinel.index)⟩ }) := by
  rcases n.createSnapshot_cases index data with ⟨later, same⟩ | ⟨term, later, above, _, committed, found, same | same⟩
  · rw [same]
    exact Or.inl rfl
  · rw [same]
    exact Or.inr ⟨term, above, committed, found, Or.inl rfl⟩
  · rw [same]
    exact Or.inr ⟨term, above, committed, found, Or.inr rfl⟩

theorem confirmSnapshotRestored_core (n : Node) (index : Nat) :
    (n.confirmSnapshotRestored index).1.core = n.core := by
  unfold confirmSnapshotRestored
  split
  · rfl
  split
  · rfl
  dsimp only
  split <;> rfl

theorem markApplied_core (n : Node) (index : Nat) : (n.markApplied index).1.core = n.core := by
  unfold markApplied
  split
  · rfl
  split <;> rfl

theorem installSnapshot_core (n : Node) (snap : Snapshot) :
    let log := n.log.installSnapshotBoundary snap.lastIncludedIndex snap.lastIncludedTerm
    ((n.installSnapshot snap).2.success = false ∧
        ((n.installSnapshot snap).1.core = n.core ∨
          (n.installSnapshot snap).1.core = { n.core with snapshot := some snap })) ∨
      (n.installSnapshot snap).1.core =
        { n.core with
          snapshot := some snap
          log := log
          state := some ⟨n.currentTerm, n.votedFor, log.rest⟩
          commitIndex := max n.commitIndex snap.lastIncludedIndex } := by
  intro log
  rcases n.installSnapshot_shape snap with ⟨later, saved, kind, same⟩ | ⟨later, commitCh, same⟩
  · rw [same]
    rcases kind with rfl | rfl
    · exact Or.inl ⟨rfl, Or.inl rfl⟩
    · exact Or.inl ⟨rfl, Or.inr rfl⟩
  · rw [same]
    exact Or.inr rfl

theorem receiveSnapshotChunk_incomplete {args : InstallSnapshotArgs}
    (incomplete : (n.receiveSnapshotChunk args).2 = .incomplete) : args.final = false := by
  have path := n.receiveSnapshotChunk_path args
  generalize n.receiveSnapshotChunk args = result at path incomplete
  cases path with
  | taken fits target open_ => exact open_
  | oversized | discarded | completed => cases incomplete

section

variable (ok : CoreOk members record n.core)

include ok

theorem majority_eq : n.majority = members.length / 2 + 1 := by
  rw [← ok.size]
  rfl

theorem becomeFollower_ok {term : Nat} (newer : n.currentTerm < term) :
    CoreOk members record (n.becomeFollower term).1.core ∧ (n.becomeFollower term).1.id = n.id := by
  rcases n.becomeFollower_core term with ⟨_, same⟩ | ⟨_, same⟩
  · exact ⟨by rw [same]; exact ok, congrArg Core.id same⟩
  · exact ⟨by rw [same]; exact ok.stepDown newer, congrArg Core.id same⟩

theorem observeTerm_ok (term : Nat) :
    CoreOk members record (n.observeTerm term).1.core ∧ (n.observeTerm term).1.id = n.id := by
  rcases (n.observeTerm_core term).1 with same | ⟨newer, same⟩
  · exact ⟨by rw [same]; exact ok, congrArg Core.id same⟩
  · exact ⟨by rw [same]; exact ok.stepDown newer, congrArg Core.id same⟩

theorem appendEntriesArgs_ok (leading : n.role = .leader) {peer : String} (known : peer ∈ n.peers)
    (within : n.log.sentinel.index < n.nextIndex peer) :
    RequestOk members record n.id (.appendEntries peer (n.appendEntriesArgs peer)) := by
  have leader := ok.leader leading
  have length : (record.log n.currentTerm).length = n.log.lastIndex := leader.length_eq
  have bounds : 1 ≤ n.nextIndex peer ∧ n.nextIndex peer ≤ (record.log n.currentTerm).length + 1 :=
    leader.next peer known
  have inside := ok.others.mem_iff.mp known
  obtain ⟨start, previous⟩ : ∃ start, n.nextIndex peer - 1 = n.log.sentinel.index + start :=
    ⟨n.nextIndex peer - 1 - n.log.sentinel.index, by omega⟩
  have rest : n.log.rest = (record.log n.currentTerm).drop n.log.sentinel.index := leader.rest
  have entries : n.log.slice (n.nextIndex peer - 1 + 1) = (record.log n.currentTerm).drop (n.nextIndex peer - 1) := by
    rw [previous, Log.slice_eq, rest, List.drop_drop]
  obtain ⟨term, found⟩ : ∃ term, n.log.termAt (n.nextIndex peer - 1) = some term :=
    Log.termAt_of_le (by omega) (by omega)
  refine ⟨List.mem_of_mem_erase inside, ?_, rfl, ok.member, leader.elected, ?_, ?_, ?_, ok.settled.reached⟩
  · rintro rfl
    exact ok.distinct.not_mem_erase inside
  · simp only [appendEntriesArgs, found, Option.getD_some]
    exact leader.termAt_eq found
  · simp only [appendEntriesArgs, entries, List.length_drop]
    omega
  · intro slot _
    simp only [appendEntriesArgs, entries, List.getElem?_drop]

theorem readIndexStart_ok {round : ReadRound} (started : n.readIndexStart = .ok round) :
    CallsOk members n.id round.calls record := by
  unfold readIndexStart at started
  split at started
  · cases started
  · rename_i leading
    simp only [ne_eq, not_not] at leading
    cases started
    intro call made
    simp only [readIndexCalls, List.mem_filterMap, Option.ite_none_left_eq_some, Option.some.injEq] at made
    obtain ⟨peer, known, within, rfl⟩ := made
    exact appendEntriesArgs_ok ok leading known (by omega)

theorem broadcastCall_ok (leading : n.role = .leader) {peer : String} (known : peer ∈ n.peers) :
    RequestOk members record n.id (n.broadcastCall peer) := by
  unfold broadcastCall
  by_cases behind : n.nextIndex peer ≤ n.log.sentinel.index
  · have leader := ok.leader leading
    have inside := ok.others.mem_iff.mp known
    simp only [if_pos behind]
    refine ⟨List.mem_of_mem_erase inside, ?_, rfl, ok.member, leader.elected, rfl, rfl, ok.anchored, leader.base⟩
    rintro rfl
    exact ok.distinct.not_mem_erase inside
  · simp only [if_neg behind]
    exact appendEntriesArgs_ok ok leading known (by omega)

theorem requestVoteArgs_ok (standing : n.role = .candidate) {peer : String} (known : peer ∈ n.peers) :
    RequestOk members record n.id
      (.requestVote peer ⟨n.currentTerm, n.id, n.log.lastIndex, n.log.lastTerm⟩) := by
  have inside := ok.others.mem_iff.mp known
  have self : n.votedFor = n.id := ok.stands (by rw [show n.core.role = .candidate from standing]; decide)
  refine ⟨List.mem_of_mem_erase inside, ?_, rfl, ok.member, ?_, (ok.candidate standing).ticket⟩
  · rintro rfl
    exact ok.distinct.not_mem_erase inside
  · have voted := ok.voted
    have named : n.votedFor ≠ "" := by
      rw [self]
      exact ok.named
    exact voted.trans ((if_neg named).trans (congrArg some self))

theorem noteMatch_ok (leading : n.role = .leader) {peer : String} {position : Nat}
    (held : Held record n.currentTerm peer position) :
    CoreOk members record { n with matchIndex := Function.update n.matchIndex peer position }.core := by
  have leader := ok.leader leading
  refine { ok with candidate := fun standing => { ok.candidate standing with }, leader := fun _ => ?_ }
  refine { leader with matched := fun other known => ?_ }
  have before := leader.matched other known
  simp only [core] at before ⊢
  by_cases same : other = peer
  · subst same
    rw [Function.update_self]
    exact held.imp_right (fun le => le.trans leader.committed.le)
  · rw [Function.update_of_ne same]
    exact before

theorem noteNext_ok (leading : n.role = .leader) {peer : String} {position : Nat} (positive : 1 ≤ position)
    (inside : position ≤ (record.log n.currentTerm).length + 1) :
    CoreOk members record { n with nextIndex := Function.update n.nextIndex peer position }.core := by
  have leader := ok.leader leading
  refine { ok with candidate := fun standing => { ok.candidate standing with }, leader := fun _ => ?_ }
  refine { leader with next := fun other known => ?_ }
  have before := leader.next other known
  simp only [core] at before ⊢
  by_cases same : other = peer
  · subst same
    rw [Function.update_self]
    exact ⟨positive, inside⟩
  · rw [Function.update_of_ne same]
    exact before

theorem noteProgress_ok (leading : n.role = .leader) {peer : String} {position : Nat}
    (held : Held record n.currentTerm peer position) (inside : position ≤ (record.log n.currentTerm).length) :
    CoreOk members record (n.noteProgress peer position).core ∧ (n.noteProgress peer position).role = .leader ∧
      (n.noteProgress peer position).id = n.id := by
  have matched : ∃ m : Node, m = (if n.matchIndex peer < position then
      { n with matchIndex := Function.update n.matchIndex peer position } else n) ∧
      CoreOk members record m.core ∧ m.role = .leader ∧ m.id = n.id ∧ m.currentTerm = n.currentTerm := by
    by_cases lower : n.matchIndex peer < position
    · exact ⟨_, (if_pos lower).symm, noteMatch_ok ok leading held, leading, rfl, rfl⟩
    · exact ⟨_, (if_neg lower).symm, ok, leading, rfl, rfl⟩
  obtain ⟨m, shape, okM, leadingM, idM, termM⟩ := matched
  simp only [noteProgress, ← shape]
  split
  · exact ⟨noteNext_ok okM leadingM (by omega) (by rw [termM]; omega), leadingM, idM⟩
  · exact ⟨okM, leadingM, idM⟩

theorem follow_ok {term : Nat} {leaderID : String} {m f : Node} (observed : n.observeTerm term = (m, true))
    (follows : m.follow leaderID = f) :
    CoreOk members record f.core ∧ f.id = n.id ∧ f.currentTerm = term ∧ f.role = .follower := by
  obtain ⟨kept, sameId⟩ := observeTerm_ok ok term
  have current := (n.observeTerm_core term).2
  rw [observed] at kept sameId current
  have core := m.follow_core leaderID
  rw [follows] at core
  refine ⟨?_, (congrArg Core.id core).trans sameId, (congrArg Core.currentTerm core).trans (current rfl),
    congrArg Core.role core⟩
  rw [core]
  exact kept.yield

end

section

variable (sound : History.Sound members record) (numbered : Numbered record) (ok : CoreOk members record n.core)

include sound numbered ok

theorem handleRequestVote_ok {args : RequestVoteArgs} (named : args.candidateID ≠ "") :
    Evolves members record n (n.handleRequestVote args).1 (fun larger =>
      ReplyOk larger (.requestVote n.id args) (.requestVote (n.handleRequestVote args).2)) := by
  obtain ⟨observed, sameId⟩ := observeTerm_ok ok args.term
  rcases n.handleRequestVote_core args with ⟨refused, same⟩ | ⟨current, free, upToDate, same⟩
  · refine Evolves.still sound numbered (by rw [same]; exact observed) ((congrArg Core.id same).trans sameId) ?_
    intro granted
    rw [refused] at granted
    cases granted
  · have ballot := observed.ballot upToDate
    have sameTerm : (n.observeTerm args.term).1.core.currentTerm = args.term := current
    have sameMember : (n.observeTerm args.term).1.core.id = n.id := sameId
    have finalId : (n.handleRequestVote args).1.id = n.id := (congrArg Core.id same).trans sameId
    rw [sameTerm, sameMember] at ballot
    by_cases unused : (n.observeTerm args.term).1.votedFor = ""
    · obtain ⟨evolution, voted⟩ := observed.vote sound numbered unused named
      rw [sameTerm, sameMember] at evolution voted
      refine ⟨_, evolution, by rw [same]; exact voted, finalId, fun _ => ⟨?_, ballot⟩⟩
      simp only [History.castVote, History.setAt_same]
    · have again := free.resolve_left unused
      refine Evolves.still sound numbered (by rw [same]; exact observed.revote again) finalId (fun _ => ⟨?_, ballot⟩)
      have voted := observed.voted
      rw [sameTerm, sameMember] at voted
      exact voted.trans ((if_neg unused).trans (congrArg some again))

theorem maybeAdvanceCommitIndex_ok (leading : n.role = .leader) :
    Evolves members record n n.maybeAdvanceCommitIndex (fun _ => True) := by
  rcases n.maybeAdvanceCommitIndexFrom_cases n.log.lastIndex with same | ⟨index, above, own, enough, same⟩
  · rw [maybeAdvanceCommitIndex, same]
    exact Evolves.still sound numbered ok rfl trivial
  · rw [maybeAdvanceCommitIndex, same]
    rw [majority_eq ok] at enough
    obtain ⟨larger, evolution, done⟩ := ok.commit sound numbered leading above own enough
    exact ⟨larger, evolution, done, rfl, trivial⟩

theorem broadcastAppendEntries_ok (leading : n.role = .leader) :
    Evolves members record n n.broadcastAppendEntries.1 (CallsOk members n.id n.broadcastAppendEntries.2) := by
  obtain ⟨larger, evolution, done, same, _⟩ := maybeAdvanceCommitIndex_ok sound numbered ok leading
  refine ⟨larger, evolution, done, same, fun call started => ?_⟩
  obtain ⟨peer, known, rfl⟩ := List.mem_map.mp started
  exact (broadcastCall_ok ok leading known).mono evolution.grown

theorem becomeLeader_ok (standing : n.role = .candidate) (enough : n.majority ≤ n.votesReceived.length) :
    Evolves members record n n.becomeLeader.1 (CallsOk members n.id n.becomeLeader.2) := by
  rw [majority_eq ok] at enough
  obtain ⟨larger, evolution, won⟩ := ok.win sound numbered standing enough
  have elected : Evolves members record n
      { n with
        role := .leader
        leaderID := n.id
        votesReceived := []
        nextIndex := fun peer => if peer ∈ n.peers then n.log.lastIndex + 1 else 0
        matchIndex := fun _ => 0
        heartbeatElapsed := 0 } (fun _ => True) := ⟨larger, evolution, won, rfl, trivial⟩
  exact elected.bind (fun _ _ sound numbered ok _ => broadcastAppendEntries_ok sound numbered ok rfl)

theorem startElection_ok : Evolves members record n n.startElection.1 (CallsOk members n.id n.startElection.2) := by
  rcases persist_cases { n with currentTerm := n.currentTerm + 1, votedFor := n.id } with
    ⟨later, same⟩ | ⟨later, same⟩
  · simp only [startElection, same]
    exact Evolves.still sound numbered ok rfl callsOk_nil
  · simp only [startElection, same, if_true]
    generalize shape : resetElectionTimer _ = m
    have core : m.core = n.core.stand := by
      rw [← shape, resetElectionTimer_core]
      rfl
    have id : m.id = n.id := congrArg Core.id core
    have standing : m.role = .candidate := congrArg Core.role core
    obtain ⟨evolution, stood⟩ := ok.stand sound numbered
    have stands : Evolves members record n m (fun _ => True) :=
      ⟨_, evolution, by rw [core]; exact stood, id, trivial⟩
    refine stands.bind (fun larger _ sound numbered ok _ => ?_)
    by_cases enough : m.majority ≤ m.votesReceived.length
    · rw [if_pos enough, ← id]
      exact becomeLeader_ok sound numbered ok standing enough
    · rw [if_neg enough, ← id]
      refine Evolves.still sound numbered ok rfl (fun call started => ?_)
      obtain ⟨peer, known, rfl⟩ := List.mem_map.mp started
      exact requestVoteArgs_ok ok standing known

theorem tick_ok : Evolves members record n n.tick.1 (CallsOk members n.id n.tick.2) := by
  unfold tick
  split
  · rename_i leading
    dsimp only
    split
    · exact broadcastAppendEntries_ok (n := { n with heartbeatElapsed := 0 }) sound numbered ok leading
    · exact Evolves.still sound numbered ok rfl callsOk_nil
  · dsimp only
    split
    · exact startElection_ok (n := { n with electionElapsed := n.electionElapsed + 1 }) sound numbered ok
    · exact Evolves.still sound numbered ok rfl callsOk_nil

theorem sendRequestVoteReply_ok {peer : String} {args : RequestVoteArgs} {reply : RequestVoteReply}
    (request : RequestOk members record n.id (.requestVote peer args))
    (answer : ReplyOk record (.requestVote peer args) (.requestVote reply)) :
    Evolves members record n (n.sendRequestVoteReply peer args.term reply).1
      (CallsOk members n.id (n.sendRequestVoteReply peer args.term reply).2) := by
  unfold sendRequestVoteReply
  split
  · rename_i newer
    obtain ⟨stepped, same⟩ := becomeFollower_ok ok newer
    exact Evolves.still sound numbered stepped same callsOk_nil
  split
  · exact Evolves.still sound numbered ok rfl callsOk_nil
  split
  · exact Evolves.still sound numbered ok rfl callsOk_nil
  rename_i current granted
  simp only [ne_eq, not_or, not_not] at current
  simp only [Bool.not_eq_true', Bool.not_eq_false] at granted
  obtain ⟨standing, sameTerm⟩ := current
  obtain ⟨known, _, self, _, _, ticket⟩ := request
  obtain ⟨vote, support⟩ := answer granted
  rw [← sameTerm] at ticket vote support
  have candidate := ok.candidate standing
  have same : (args.lastLogIndex, args.lastLogTerm) = (n.log.lastIndex, n.log.lastTerm) :=
    ticket.symm.trans candidate.ticket
  rw [Prod.mk.injEq] at same
  rw [same.1, same.2] at support
  rw [self] at vote
  have counted : CoreOk members record { n with votesReceived := n.votesReceived.insert peer }.core :=
    { ok with
      candidate := fun _ =>
        { candidate with
          distinct := candidate.distinct.insert
          backed := fun voter inside => by
            rcases List.mem_insert_iff.mp inside with rfl | old
            · exact ⟨known, vote, support⟩
            · exact candidate.backed voter old }
      leader := fun leading => { ok.leader leading with } }
  dsimp only
  split
  · rename_i enough
    exact becomeLeader_ok (n := { n with votesReceived := n.votesReceived.insert peer }) sound numbered counted
      standing enough
  · exact Evolves.still sound numbered counted rfl callsOk_nil

theorem noteProgress_commit_ok (leading : n.role = .leader) {peer : String} {position : Nat}
    (held : Held record n.currentTerm peer position) (inside : position ≤ (record.log n.currentTerm).length) :
    Evolves members record n (n.noteProgress peer position).maybeAdvanceCommitIndex (fun _ => True) := by
  obtain ⟨noted, stillLeading, same⟩ := noteProgress_ok ok leading held inside
  have step : Evolves members record n (n.noteProgress peer position) (fun _ => True) :=
    Evolves.still sound numbered noted same trivial
  exact step.bind (fun _ _ sound numbered ok _ => maybeAdvanceCommitIndex_ok sound numbered ok stillLeading)

theorem sendAppendEntriesReply_ok {peer : String} {args : AppendEntriesArgs} {reply : AppendEntriesReply}
    (request : RequestOk members record n.id (.appendEntries peer args))
    (answer : ReplyOk record (.appendEntries peer args) (.appendEntries reply)) :
    Evolves members record n (n.sendAppendEntriesReply peer args reply).1 (fun _ => True) := by
  unfold sendAppendEntriesReply
  split
  · rename_i newer
    obtain ⟨stepped, same⟩ := becomeFollower_ok ok newer
    exact Evolves.still sound numbered stepped same trivial
  split
  · exact Evolves.still sound numbered ok rfl trivial
  rename_i current
  simp only [ne_eq, not_or, not_not] at current
  obtain ⟨leading, sameTerm⟩ := current
  obtain ⟨known, other, _, _, _, _, inside, _, _⟩ := request
  rw [← sameTerm] at inside
  split
  · rename_i success
    have held := answer success
    rw [← sameTerm] at held
    exact noteProgress_commit_ok sound numbered ok leading held inside
  split
  · rename_i above
    have isPeer : peer ∈ n.peers := ok.others.mem_iff.mpr ((List.mem_erase_of_ne other).mpr known)
    have bounds : 1 ≤ n.nextIndex peer ∧ n.nextIndex peer ≤ (record.log n.currentTerm).length + 1 :=
      (ok.leader leading).next peer isPeer
    exact Evolves.still sound numbered (noteNext_ok ok leading (by omega) (by omega)) rfl trivial
  · exact Evolves.still sound numbered ok rfl trivial

theorem sendInstallSnapshotReply_ok {peer : String} {snap : Snapshot} {args : InstallSnapshotArgs}
    {reply : InstallSnapshotReply} (request : RequestOk members record n.id (.installSnapshot peer snap args))
    (answer : ReplyOk record (.installSnapshot peer snap args) (.installSnapshot reply)) :
    Evolves members record n (n.sendInstallSnapshotReply peer snap args reply).1
      (CallsOk members n.id (n.sendInstallSnapshotReply peer snap args reply).2) := by
  unfold sendInstallSnapshotReply
  split
  · rename_i newer
    obtain ⟨stepped, same⟩ := becomeFollower_ok ok newer
    exact Evolves.still sound numbered stepped same callsOk_nil
  split
  · exact Evolves.still sound numbered ok rfl callsOk_nil
  rename_i current
  simp only [ne_eq, not_or, not_not] at current
  obtain ⟨leading, sameTerm⟩ := current
  split
  · exact Evolves.still sound numbered ok rfl callsOk_nil
  rename_i success
  simp only [Bool.not_eq_true', Bool.not_eq_false] at success
  obtain ⟨known, other, self, sender, elected, index, term, anchored, found⟩ := request
  split
  · rename_i final
    have held := answer success final
    rw [← sameTerm] at held found
    exact (noteProgress_commit_ok sound numbered ok leading held (termAt_le_length found)).weaken
      (fun _ _ => callsOk_nil)
  · refine Evolves.still sound numbered ok rfl (fun call started => ?_)
    rw [List.mem_singleton] at started
    subst started
    exact ⟨known, other, rfl, sender, elected, rfl, rfl, anchored, found⟩

theorem handleAppendEntries_ok {src : String} {args : AppendEntriesArgs}
    (request : RequestOk members record src (.appendEntries n.id args)) :
    Evolves members record n (n.handleAppendEntries args).1 (fun larger =>
      ReplyOk larger (.appendEntries n.id args) (.appendEntries (n.handleAppendEntries args).2)) := by
  obtain ⟨observed, sameId⟩ := observeTerm_ok ok args.term
  rcases n.handleAppendEntries_core args with ⟨refused, same | same⟩ | ⟨current, found, same⟩
  · refine Evolves.still sound numbered (by rw [same]; exact observed) ((congrArg Core.id same).trans sameId) ?_
    intro success
    rw [refused] at success
    cases success
  · refine Evolves.still sound numbered (by rw [same]; exact observed.yield)
      ((congrArg Core.id same).trans sameId) ?_
    intro success
    rw [refused] at success
    cases success
  · obtain ⟨larger, evolution, accepted, held⟩ := observed.accept_call sound numbered request current found
    have sameMember : (n.observeTerm args.term).1.core.id = n.id := sameId
    rw [sameMember] at evolution held
    exact ⟨larger, evolution, by rw [same]; exact accepted, (congrArg Core.id same).trans sameId, fun _ => held⟩

theorem propose_ok (command : Command) :
    Evolves members record n (n.propose command).1 (CallsOk members n.id (n.propose command).2.2) := by
  unfold propose
  split
  · exact Evolves.still sound numbered ok rfl callsOk_nil
  · rename_i leading
    simp only [ne_eq, not_not] at leading
    rcases persist_cases { n with log := (n.log.append ⟨0, n.currentTerm, command⟩).1 } with
      ⟨later, same⟩ | ⟨later, same⟩
    · simp only [same]
      exact Evolves.still sound numbered ok rfl callsOk_nil
    · simp only [same]
      obtain ⟨larger, evolution, proposed⟩ := ok.propose sound numbered leading command
      generalize shape : ({ n with
        log := (n.log.append ⟨0, n.currentTerm, command⟩).1
        persister := _ } : Node) = m
      have core : CoreOk members larger m.core := by
        rw [← shape]
        exact proposed
      have id : m.id = n.id := by rw [← shape]
      have leadingM : m.role = .leader := by rw [← shape]; exact leading
      have extended : Evolves members record n m (fun _ => True) := ⟨larger, evolution, core, id, trivial⟩
      refine extended.bind (fun _ _ sound numbered ok _ => ?_)
      rw [← id]
      exact broadcastAppendEntries_ok sound numbered ok leadingM

theorem createSnapshot_ok (index : Nat) (data : List UInt8) :
    Evolves members record n (n.createSnapshot index data).1 (fun _ => True) := by
  rcases n.createSnapshot_core index data with same | ⟨term, above, committed, found, shape⟩
  · exact Evolves.still sound numbered (by rw [same]; exact ok) (congrArg Core.id same) trivial
  · have anchored : Anchored members record index term n.currentTerm := by
      rcases Log.termAt_cases found with ⟨same, _⟩ | ⟨slot, entry, rfl, present, rfl⟩
      · omega
      · exact ok.settled.anchored present (Nat.lt_of_succ_le committed)
    have saved : CoreOk members record { n.core with snapshot := some ⟨index, term, data⟩ } :=
      ok.save above anchored
    rcases shape with same | same
    · exact Evolves.still sound numbered (by rw [same]; exact saved) (congrArg Core.id same) trivial
    · refine Evolves.still sound numbered ?_ (congrArg Core.id same) trivial
      rw [same]
      exact saved.advance rfl above found

theorem acknowledge_base (following : n.role = .follower) (led : (record.leader n.currentTerm).isSome) {index : Nat}
    (below : index ≤ n.log.sentinel.index) (inside : index ≤ (record.log n.currentTerm).length) :
    Evolves members record n n (fun larger => Held larger n.currentTerm n.id index) := by
  have follows : Follows record n.core.log.window n.core.currentTerm index := by
    intro place within
    have base : n.core.log.window.base = n.log.sentinel.index := rfl
    omega
  obtain ⟨larger, evolution, done, held⟩ := ok.acknowledge sound numbered following led inside follows
  exact ⟨larger, evolution, done, rfl, held⟩

theorem installSnapshot_ok (following : n.role = .follower) (led : (record.leader n.currentTerm).isSome)
    {snap : Snapshot} (anchored : Anchored members record snap.lastIncludedIndex snap.lastIncludedTerm n.currentTerm)
    (inside : snap.lastIncludedIndex ≤ (record.log n.currentTerm).length)
    (above : n.log.sentinel.index < snap.lastIncludedIndex) :
    Evolves members record n (n.installSnapshot snap).1 (fun larger =>
      (n.installSnapshot snap).2.success = true → Held larger n.currentTerm n.id snap.lastIncludedIndex) := by
  have saved := ok.save above anchored
  have fails : (n.installSnapshot snap).2.success = false → ∀ larger,
      (n.installSnapshot snap).2.success = true → Held larger n.currentTerm n.id snap.lastIncludedIndex := by
    intro failed larger success
    rw [failed] at success
    cases success
  rcases n.installSnapshot_core snap with ⟨failed, same | same⟩ | same
  · exact Evolves.still sound numbered (by rw [same]; exact ok) (congrArg Core.id same) (fails failed record)
  · exact Evolves.still sound numbered (by rw [same]; exact saved) (congrArg Core.id same) (fails failed record)
  · have adopted := saved.adopt sound following rfl above
    have sentinel := n.log.installSnapshotBoundary_sentinel snap.lastIncludedIndex snap.lastIncludedTerm
    have raised : CoreOk members record (n.installSnapshot snap).1.core := by
      rw [same]
      rcases Nat.le_total snap.lastIncludedIndex n.commitIndex with lower | higher
      · rw [Nat.max_eq_left lower]
        exact adopted
      · rw [Nat.max_eq_right higher]
        have base := adopted.raise_base following
        simp only [core, sentinel] at base ⊢
        exact base
    have id : (n.installSnapshot snap).1.id = n.id := congrArg Core.id same
    have term : (n.installSnapshot snap).1.currentTerm = n.currentTerm := congrArg Core.currentTerm same
    have role : (n.installSnapshot snap).1.role = n.role := congrArg Core.role same
    have log : (n.installSnapshot snap).1.log =
        n.log.installSnapshotBoundary snap.lastIncludedIndex snap.lastIncludedTerm := congrArg Core.log same
    have below : snap.lastIncludedIndex ≤ (n.installSnapshot snap).1.log.sentinel.index := by rw [log, sentinel]
    have acknowledged := acknowledge_base sound numbered raised (role.trans following)
      (by rw [term]; exact led) below (by rw [term]; exact inside)
    rw [term, id] at acknowledged
    have installed : Evolves members record n (n.installSnapshot snap).1 (fun larger => larger = record) :=
      Evolves.still sound numbered raised id rfl
    refine installed.bind (fun larger _ _ _ _ same => ?_)
    rw [same]
    exact acknowledged.weaken (fun _ held _ => held)

theorem handleInstallSnapshot_ok {src : String} {snap : Snapshot} {args : InstallSnapshotArgs}
    (request : RequestOk members record src (.installSnapshot n.id snap args)) :
    Evolves members record n (n.handleInstallSnapshot args).1 (fun larger =>
      ReplyOk larger (.installSnapshot n.id snap args) (.installSnapshot (n.handleInstallSnapshot args).2)) := by
  obtain ⟨_, _, _, _, elected, index, term, anchored, found⟩ := request
  have led : (record.leader args.term).isSome := by
    rw [elected]
    rfl
  have inside := termAt_le_length found
  rw [← index] at anchored inside
  rw [← term] at anchored
  have path := n.handleInstallSnapshot_path args
  generalize n.handleInstallSnapshot args = result at path ⊢
  cases path with
  | refused observed =>
    obtain ⟨kept, sameId⟩ := observeTerm_ok ok args.term
    rw [observed] at kept sameId
    exact Evolves.still sound numbered kept sameId (fun success => by cases success)
  | @covered m f transfer observed follows behind kind =>
    -- The boundary is already covered, which is an acknowledgement.
    obtain ⟨okF, idF, termF, roleF⟩ := follow_ok ok observed follows
    have start : Evolves members record n f (fun larger => larger = record) := Evolves.still sound numbered okF idF rfl
    have held := acknowledge_base sound numbered okF roleF (by rw [termF]; exact led) behind
      (by rw [termF]; exact inside)
    rw [termF, idF, index] at held
    refine start.bind (fun larger _ _ _ _ same => ?_)
    rw [same]
    exact (held.weaken (fun _ holds _ _ => holds)).recore rfl
  | @received m f transfer success observed follows above outcome =>
    obtain ⟨okF, idF, _, _⟩ := follow_ok ok observed follows
    refine (Evolves.still sound numbered okF idF (fun taken last => ?_)).recore rfl
    dsimp only at taken
    subst taken
    rw [receiveSnapshotChunk_incomplete (congrArg Prod.snd outcome)] at last
    cases last
  | @installed m f transfer data observed follows above completes =>
    obtain ⟨okF, idF, termF, roleF⟩ := follow_ok ok observed follows
    have start : Evolves members record n { f with chunkTransfer := transfer } (fun larger => larger = record) :=
      Evolves.still sound numbered okF idF rfl
    have finish := @installSnapshot_ok members record { f with chunkTransfer := transfer } sound numbered okF roleF
      (by rw [termF]; exact led) ⟨args.lastIncludedIndex, args.lastIncludedTerm, data⟩
      (by rw [termF]; exact anchored) (by rw [termF]; exact inside) above
    refine start.bind (fun larger _ _ _ _ same => ?_)
    rw [same]
    refine Evolves.weaken ?_ finish
    intro larger holds success _
    have held := holds success
    rw [termF, idF] at held
    rw [← index]
    exact held

theorem serve_ok (named : "" ∉ members) {src : String} {call : Call} (callee : call.peer = n.id)
    (request : RequestOk members record src call) :
    Evolves members record n (n.serve call).1 (fun larger => ReplyOk larger call (n.serve call).2) := by
  cases call with
  | requestVote peer args =>
    obtain rfl : peer = n.id := callee
    obtain ⟨_, _, self, sender, _⟩ := request
    refine handleRequestVote_ok sound numbered ok (fun unnamed => named ?_)
    rw [← unnamed, self]
    exact sender
  | appendEntries peer args =>
    obtain rfl : peer = n.id := callee
    exact handleAppendEntries_ok sound numbered ok request
  | installSnapshot peer snap args =>
    obtain rfl : peer = n.id := callee
    exact handleInstallSnapshot_ok sound numbered ok request

theorem resume_ok {call : Call} {reply : Reply} (request : RequestOk members record n.id call)
    (answer : ReplyOk record call reply) :
    Evolves members record n (n.resume call reply).1 (CallsOk members n.id (n.resume call reply).2.1) := by
  cases call <;> cases reply <;>
    first
    | exact Evolves.still sound numbered ok rfl callsOk_nil
    | skip
  · exact sendRequestVoteReply_ok sound numbered ok request answer
  · exact (sendAppendEntriesReply_ok sound numbered ok request answer).weaken (fun _ _ => callsOk_nil)
  · exact sendInstallSnapshotReply_ok sound numbered ok request answer

end

end Node

theorem newNode_core {opts : Options} (started : newNode opts = .ok n) :
    ∃ suffix, loadedSuffix opts.persister.snapshot (opts.persister.state.elim [] PersistentState.log) = .ok suffix ∧
      n.core =
        { id := opts.id
          peers := opts.peers
          currentTerm := opts.persister.state.elim 0 PersistentState.currentTerm
          votedFor := opts.persister.state.elim "" PersistentState.votedFor
          log := Log.newLogFromEntries (opts.persister.snapshot.elim 0 Snapshot.lastIncludedIndex)
            (opts.persister.snapshot.elim 0 Snapshot.lastIncludedTerm) suffix
          commitIndex := 0
          role := .follower
          votesReceived := []
          nextIndex := fun _ => 0
          matchIndex := fun _ => 0
          state := opts.persister.state
          snapshot := opts.persister.snapshot } := by
  unfold newNode at started
  cases loaded : loadedSuffix opts.persister.snapshot (opts.persister.state.elim [] PersistentState.log) with
  | error e =>
    simp only [loaded] at started
    cases started
  | ok suffix =>
    simp only [loaded] at started
    refine ⟨suffix, rfl, ?_⟩
    cases started
    rw [Node.resetElectionTimer_core]
    rfl

theorem Core.Saved.restarted_log {covered : List LogEntry} {after : Node} (saved : n.core.Saved covered)
    {opts : Options} (state : opts.persister.state = n.persister.state)
    (snapshot : opts.persister.snapshot = n.persister.snapshot) (begun : newNode opts = .ok after) :
    after.log = Log.newLogFromEntries (n.persister.snapshot.elim 0 Snapshot.lastIncludedIndex)
      (n.persister.snapshot.elim 0 Snapshot.lastIncludedTerm)
      (n.log.rest.drop (n.persister.snapshot.elim 0 Snapshot.lastIncludedIndex - n.log.sentinel.index)) := by
  obtain ⟨suffix, loaded, core⟩ := newNode_core begun
  rw [state, snapshot] at core loaded
  have kept := saved.loaded
  have sameLog : n.persister.state.elim [] PersistentState.log = (n.persister.state.getD ⟨0, "", []⟩).log := by
    cases n.persister.state <;> rfl
  rw [sameLog] at loaded
  rw [show after.log = _ from congrArg Core.log core]
  rw [show n.core.state = n.persister.state from rfl, show n.core.snapshot = n.persister.snapshot from rfl,
    loaded] at kept
  rw [Except.ok.inj kept]
  rfl

theorem restart_log (numbered : Numbered record) (ok : CoreOk members record n.core) {opts : Options} {after : Node}
    (persister : opts.persister = n.persister) (started : newNode opts = .ok after) :
    after.log = Log.newLogFromEntries (n.persister.snapshot.elim 0 Snapshot.lastIncludedIndex)
      (n.persister.snapshot.elim 0 Snapshot.lastIncludedTerm)
      (n.log.rest.drop (n.persister.snapshot.elim 0 Snapshot.lastIncludedIndex - n.log.sentinel.index)) := by
  obtain ⟨covered, saved⟩ := ok.saved_disk numbered
  exact saved.restarted_log (by rw [persister]) (by rw [persister]) started

theorem restart_ok (sound : History.Sound members record) (numbered : Numbered record)
    (ok : CoreOk members record n.core) {opts : Options} {after : Node} (id : opts.id = n.id)
    (peers : opts.peers = n.peers) (persister : opts.persister = n.persister) (started : newNode opts = .ok after) :
    Evolves members record n after (fun _ => True) := by
  obtain ⟨suffix, loaded, core⟩ := newNode_core started
  rw [id, peers, persister] at core
  rw [persister] at loaded
  obtain ⟨covered, saved, _⟩ := ok.durable
  have state : ∀ s : Option PersistentState, s.elim [] PersistentState.log = (s.getD ⟨0, "", []⟩).log ∧
      s.elim 0 PersistentState.currentTerm = (s.getD ⟨0, "", []⟩).currentTerm ∧
      s.elim "" PersistentState.votedFor = (s.getD ⟨0, "", []⟩).votedFor := by
    intro s
    cases s <;> exact ⟨rfl, rfl, rfl⟩
  obtain ⟨sameLog, sameTerm, sameVote⟩ := state n.persister.state
  rw [sameLog] at loaded
  have restarted := ok.restart sound numbered loaded
  have durable : n.persister.state.getD ⟨0, "", []⟩ = ⟨n.currentTerm, n.votedFor, covered ++ n.log.rest⟩ := saved
  rw [sameTerm, sameVote, durable] at core
  refine Evolves.still sound numbered ?_ (congrArg Core.id core) trivial
  rw [core]
  exact restarted

end

end ForgeDB.Raft
