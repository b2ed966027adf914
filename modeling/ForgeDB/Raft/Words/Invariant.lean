import ForgeDB.Raft.Words.Node

/-!
What every method of a node keeps, whatever the network sends and whichever saves fail: the log has its slot
zero and indexes that follow each other, a candidate and a leader have their maps, the disk has what memory has,
and a method that meets a failed save leaves the log and what was applied alone.
-/

namespace ForgeDB.Raft.Words.Machine

open Checked

namespace Persister

def Clean (p after : Persister) : Prop := ∃ used, p.faults = used ++ after.faults ∧ true ∉ used

def Failed (p after : Persister) : Prop := ∃ used, p.faults = used ++ after.faults ∧ true ∈ used

theorem Clean.refl (p : Persister) : p.Clean p := ⟨[], rfl, List.not_mem_nil⟩

theorem Clean.of_eq {p after : Persister} (same : after = p) : p.Clean after := same ▸ Clean.refl p

theorem Clean.trans {first second third : Persister} (left : first.Clean second) (right : second.Clean third) :
    first.Clean third := by
  obtain ⟨used, spent, clean⟩ := left
  obtain ⟨more, spent', clean'⟩ := right
  refine ⟨used ++ more, by rw [spent, spent', List.append_assoc], fun failed => ?_⟩
  exact (List.mem_append.mp failed).elim clean clean'

theorem Clean.not_failed {p after : Persister} (clean : p.Clean after) : ¬p.Failed after := by
  rintro ⟨used, spent, failed⟩
  obtain ⟨other, spent', none⟩ := clean
  have same : used = other := List.append_cancel_right (spent.symm.trans spent')
  exact none (same ▸ failed)

theorem clean_tail {p after : Persister} (ok : ∀ later, p.faults ≠ true :: later)
    (spent : after.faults = p.faults.tail) : p.Clean after := by
  rcases planned : p.faults with _ | ⟨outcome, later⟩
  · refine ⟨[], ?_, List.not_mem_nil⟩
    rw [spent, planned]
    rfl
  · refine ⟨[outcome], by rw [spent, planned]; rfl, fun failed => ?_⟩
    exact ok later (by rw [planned, ← List.mem_singleton.mp failed])

theorem saveState_cases (p : Persister) (state : PersistentState) :
    (∃ later, p.saveState state = (⟨p.state, p.snapshot, later⟩, false)) ∨
      ∃ later, p.saveState state = (⟨some state, p.snapshot, later⟩, true) ∧
      p.Clean ⟨some state, p.snapshot, later⟩ := by
  unfold saveState
  split
  · exact Or.inl ⟨_, rfl⟩
  · rename_i ok
    exact Or.inr ⟨_, rfl, clean_tail ok rfl⟩

theorem saveSnapshot_cases (p : Persister) (snap : Snapshot) :
    (∃ later, p.saveSnapshot snap = (⟨p.state, p.snapshot, later⟩, false)) ∨
      ∃ later, p.saveSnapshot snap = (⟨p.state, some snap, later⟩, true) ∧ p.Clean ⟨p.state, some snap, later⟩ := by
  unfold saveSnapshot
  split
  · exact Or.inl ⟨_, rfl⟩
  · rename_i ok
    exact Or.inr ⟨_, rfl, clean_tail ok rfl⟩

end Persister

/-- The disk has the entries of the log. After a restart it may have more of them, below the boundary or with
an index that has wrapped around. -/
structure Covers (fresh : Prop) (state : Option PersistentState) (snapshot : Option Snapshot) (l : Log) : Prop where
  reached : l.sentinel.index ≤ snapshot.elim 0 Snapshot.lastIncludedIndex
  entries : (state.elim .empty PersistentState.log).items = l.rest ∨ ¬fresh ∧ snapshot.isSome = true ∧
    (state.elim .empty PersistentState.log).items.filter (l.sentinel.index < ·.index) =
      l.rest.filter (l.sentinel.index < ·.index)

/-- What every operation relies on and keeps. The log has at most `limit` entries; a `fresh` node was made on an
empty disk. -/
structure Node.Sound (fresh : Prop) (limit : Nat) (n : Node) : Prop where
  log : ∃ l : Log, n.log.Shows l ∧ l.Contiguous ∧ (fresh → l.sentinel.index ≤ n.commitIndex) ∧
    Covers fresh n.persister.state n.persister.snapshot l
  term : n.persister.state.elim 0 PersistentState.currentTerm = n.currentTerm
  vote : n.persister.state.elim "" PersistentState.votedFor = n.votedFor
  size : n.log.entries.items.length ≤ limit
  candidate : n.role = .candidate → n.votesReceived.isSome = true
  leader : n.role = .leader → n.nextIndex.isSome = true ∧ n.matchIndex.isSome = true
  chunk : 0 < n.snapshotChunkSize
  timer : n.electionTickMax - n.electionTickMin ≤ 0 ∨ 0 < n.electionTickMax - n.electionTickMin + 1

structure Node.Steady (n after : Node) : Prop where
  log : after.log = n.log
  commitIndex : after.commitIndex = n.commitIndex
  lastApplied : after.lastApplied = n.lastApplied
  snapshotData : after.snapshotData = n.snapshotData
  pendingSnapshot : after.pendingSnapshot = n.pendingSnapshot

namespace Node

variable {fresh : Prop} {limit more : Nat} {n m after : Node} {room : Prop}

theorem Steady.refl (n : Node) : n.Steady n := ⟨rfl, rfl, rfl, rfl, rfl⟩

theorem Steady.trans (left : n.Steady m) (right : m.Steady after) : n.Steady after :=
  ⟨right.log.trans left.log, right.commitIndex.trans left.commitIndex, right.lastApplied.trans left.lastApplied,
    right.snapshotData.trans left.snapshotData, right.pendingSnapshot.trans left.pendingSnapshot⟩

theorem Steady.since (rest : m.Steady after) (first : n.Steady m) : n.Steady after := first.trans rest

def Careful (n after : Node) : Prop := n.persister.Clean after.persister ∨ n.Steady after

structure Holds (fresh : Prop) (limit : Nat) (n after : Node) (ok : Bool) : Prop where
  sound : after.Sound fresh limit
  steady : n.Steady after
  clean : ok = true → n.persister.Clean after.persister

structure Unsaved (fresh : Prop) (limit : Nat) (n after : Node) : Prop where
  sound : after.Sound fresh limit
  persister : after.persister = n.persister

structure Keeps (fresh : Prop) (limit : Nat) (n after : Node) : Prop where
  sound : after.Sound fresh limit
  careful : n.Careful after

theorem Unsaved.keeps (unsaved : Unsaved fresh limit n after) : Keeps fresh limit n after :=
  ⟨unsaved.sound, Or.inl (.of_eq unsaved.persister)⟩

theorem Holds.keeps {ok : Bool} (held : Holds fresh limit n after ok) : Keeps fresh limit n after :=
  ⟨held.sound, Or.inr held.steady⟩

theorem Holds.trans {ok : Bool} (held : Holds fresh limit n m true) (rest : Holds fresh limit m after ok) :
    Holds fresh limit n after ok :=
  ⟨rest.sound, held.steady.trans rest.steady, fun done => (held.clean rfl).trans (rest.clean done)⟩

theorem Keeps.behind (held : Holds fresh limit n m true) (rest : Keeps fresh more m after) : Keeps fresh more n after :=
  ⟨rest.sound, rest.careful.imp (held.clean rfl).trans held.steady.trans⟩

theorem Sound.grow (sound : n.Sound fresh limit) (longer : limit ≤ more) : n.Sound fresh more :=
  { sound with size := Nat.le_trans sound.size longer }

theorem Keeps.grow (keeps : Keeps fresh limit n after) (longer : limit ≤ more) : Keeps fresh more n after :=
  ⟨keeps.sound.grow longer, keeps.careful⟩

theorem Sound.kept (sound : n.Sound fresh limit) : Keeps fresh limit n n := ⟨sound, Or.inl (.refl _)⟩

theorem Sound.resetElectionTimer (sound : n.Sound fresh limit) :
    Safe room (fun after => Holds fresh limit n after true) n.resetElectionTimer := by
  unfold Node.resetElectionTimer
  dsimp only
  split
  · exact Safe.pure ⟨{ sound with }, ⟨rfl, rfl, rfl, rfl, rfl⟩, fun _ => .refl _⟩
  · rename_i positive
    have bound := sound.timer.resolve_left positive
    have drawn : intn (n.rnd 0) (n.electionTickMax - n.electionTickMin + 1) = .ok _ := if_neg (Int64.not_le.mpr bound)
    rw [drawn, ok_bind]
    exact Safe.pure ⟨{ sound with }, ⟨rfl, rfl, rfl, rfl, rfl⟩, fun _ => .refl _⟩

inductive Persists (n : Node) : Node × Bool → Prop where
  | failed (later : List Bool) :
    Persists n ({ n with persister := ⟨n.persister.state, n.persister.snapshot, later⟩ }, false)
  | saved (rest : Slice LogEntry) (later : List Bool) (items : rest.items = n.log.entries.items.drop 1)
    (clean : n.persister.Clean ⟨some ⟨n.currentTerm, n.votedFor, rest⟩, n.persister.snapshot, later⟩) :
    Persists n
      ({ n with persister := ⟨some ⟨n.currentTerm, n.votedFor, rest⟩, n.persister.snapshot, later⟩ }, true)

theorem persist_safe {l : Log} (shown : n.log.Shows l) : Safe room n.Persists n.persist := by
  have nonempty : 1 ≤ n.log.entries.items.length := by
    rw [shown.length]
    omega
  obtain ⟨copied, cut, items⟩ := Slice.startingAt_eq nonempty
  simp only [Node.persist, cut, ok_bind]
  rcases n.persister.saveState_cases ⟨n.currentTerm, n.votedFor, copied⟩ with ⟨later, done⟩ | ⟨later, done, clean⟩
  · rw [done]
    exact Safe.pure (.failed later)
  · rw [done]
    exact Safe.pure (.saved copied later items clean)

theorem covers_whole {l : Log} (shown : n.log.Shows l) {rest : Slice LogEntry}
    (items : rest.items = n.log.entries.items.drop 1) {term : UInt64} {vote : String} {snapshot : Option Snapshot}
    (reached : l.sentinel.index ≤ snapshot.elim 0 Snapshot.lastIncludedIndex) :
    Covers fresh (some ⟨term, vote, rest⟩) snapshot l := by
  refine ⟨reached, Or.inl (items.trans ?_)⟩
  rw [shown]
  rfl

theorem Sound.saved (sound : n.Sound fresh limit) {rest : Slice LogEntry}
    (items : rest.items = n.log.entries.items.drop 1) (term : UInt64) (vote : String) (later : List Bool) :
    Sound fresh limit { n with
      currentTerm := term, votedFor := vote, persister := ⟨some ⟨term, vote, rest⟩, n.persister.snapshot, later⟩ } := by
  obtain ⟨l, shown, contiguous, below, covered⟩ := sound.log
  exact { sound with
    log := ⟨l, shown, contiguous, below, covers_whole shown items covered.reached⟩, term := rfl, vote := rfl }

theorem Sound.becomeFollower (sound : n.Sound fresh limit) (term : UInt64) :
    Safe room (fun result => Holds fresh limit n result.1 result.2) (n.becomeFollower term) := by
  obtain ⟨l, shown, -⟩ := sound.log
  refine Safe.bind (persist_safe (n := { n with currentTerm := term, votedFor := "" }) shown) ?_
  rintro _ (later | ⟨rest, later, items, clean⟩)
  · exact Safe.pure ⟨{ sound with }, ⟨rfl, rfl, rfl, rfl, rfl⟩, nofun⟩
  · have saved := sound.saved items term "" later
    have stepped : Sound fresh limit { n with
        currentTerm := term, votedFor := "", persister := _, role := .follower, leaderID := "",
        votesReceived := none } :=
      { saved with candidate := nofun, leader := nofun }
    refine stepped.resetElectionTimer.bind fun n held => Safe.pure ⟨held.sound, ?_, fun _ => ?_⟩
    · exact held.steady.since ⟨rfl, rfl, rfl, rfl, rfl⟩
    · exact clean.trans (held.clean rfl)

theorem Sound.maybeAdvanceCommitIndexFrom (sound : n.Sound fresh limit) (N : Nat) :
    Safe room (Unsaved fresh limit n) (n.maybeAdvanceCommitIndexFrom N) := by
  obtain ⟨l, shown, contiguous, below, covered⟩ := sound.log
  induction N with
  | zero => exact Safe.pure ⟨sound, rfl⟩
  | succ N ih =>
    unfold Node.maybeAdvanceCommitIndexFrom
    split
    · exact Safe.pure ⟨sound, rfl⟩
    rename_i above
    rw [shown.termAt, ok_bind]
    split
    · exact ih
    split
    · have higher := UInt64.le_of_lt (UInt64.not_le.mp above)
      exact Safe.pure ⟨{ sound with
        log := ⟨l, shown, contiguous, fun start => UInt64.le_trans (below start) higher, covered⟩ }, rfl⟩
    · exact ih

theorem Sound.maybeAdvanceCommitIndex (sound : n.Sound fresh limit) :
    Safe room (Unsaved fresh limit n) n.maybeAdvanceCommitIndex := by
  obtain ⟨l, shown, -⟩ := sound.log
  rw [Node.maybeAdvanceCommitIndex, shown.lastIndex, ok_bind]
  exact sound.maybeAdvanceCommitIndexFrom _

theorem Sound.appendEntriesArgs (sound : n.Sound fresh limit) (peer : String) :
    Safe room (fun _ => True) (n.appendEntriesArgs peer) := by
  obtain ⟨l, shown, -⟩ := sound.log
  obtain ⟨part, sliced, -⟩ := shown.slice (n.nextIndex.get 0 peer - 1 + 1)
  simp only [Node.appendEntriesArgs, shown.termAt, sliced, ok_bind]
  exact Safe.pure trivial

end Node

def Call.Within : Call → Prop
  | .installSnapshot _ snap _ stop => stop ≤ snap.data.len
  | _ => True

namespace Node

variable {fresh : Prop} {limit : Nat} {n : Node} {room : Prop}

theorem toUInt64_lt {size : Int64} (positive : 0 < size) : size.toUInt64.toNat < 2 ^ 63 := by
  have above : 0 < size.toBitVec.toInt := Int64.lt_iff_toInt_lt.mp positive
  rw [BitVec.toInt_eq_toNat_cond] at above
  have bound := size.toUInt64.toNat_lt
  have same : size.toBitVec.toNat = size.toUInt64.toNat := rfl
  split at above <;> omega

theorem Sound.sendInstallSnapshotArgs (sound : n.Sound fresh limit) (term : UInt64) (snap : Snapshot) {offset : UInt64}
    (inside : offset ≤ snap.data.len) :
    Safe room (fun result => result.2 ≤ snap.data.len) (n.sendInstallSnapshotArgs term snap offset) := by
  have size := toUInt64_lt sound.chunk
  have fits := snap.data.fits
  have low := UInt64.le_iff_toNat_le.mp inside
  rw [Slice.toNat_len] at low
  have next : (offset + n.snapshotChunkSize.toUInt64).toNat = offset.toNat + n.snapshotChunkSize.toUInt64.toNat := by
    rw [UInt64.toNat_add]
    exact Nat.mod_eq_of_lt (by omega)
  simp only [Node.sendInstallSnapshotArgs]
  generalize shape : (if snap.data.len < offset + n.snapshotChunkSize.toUInt64 then snap.data.len
    else offset + n.snapshotChunkSize.toUInt64) = stop
  have bounds : offset.toNat ≤ stop.toNat ∧ stop.toNat ≤ snap.data.items.length := by
    rw [← shape]
    split
    · rw [Slice.toNat_len]
      omega
    · rename_i short
      have high := UInt64.le_iff_toNat_le.mp (UInt64.not_lt.mp short)
      rw [Slice.toNat_len] at high
      omega
  obtain ⟨part, cut, -⟩ := Slice.window_eq bounds.1 bounds.2
  rw [cut, ok_bind]
  refine Safe.pure ?_
  rw [UInt64.le_iff_toNat_le, Slice.toNat_len]
  exact bounds.2

theorem Sound.broadcastCall (sound : n.Sound fresh limit) (peer : String) :
    Safe room Call.Within (n.broadcastCall peer) := by
  obtain ⟨l, shown, -⟩ := sound.log
  rw [Node.broadcastCall, shown.first, ok_bind]
  dsimp only
  split
  · refine (sound.sendInstallSnapshotArgs _ _ ?_).bind fun result within => Safe.pure within
    exact UInt64.le_iff_toNat_le.mpr (Nat.zero_le _)
  · exact (sound.appendEntriesArgs peer).bind fun _ _ => Safe.pure trivial

theorem Sound.broadcastAppendEntries (sound : n.Sound fresh limit) :
    Safe room (fun result => Unsaved fresh limit n result.1 ∧ ∀ call ∈ result.2, call.Within)
      n.broadcastAppendEntries := by
  refine (Safe.mapM sound.broadcastCall n.peers).bind fun calls within => ?_
  exact sound.maybeAdvanceCommitIndex.bind fun n unsaved => Safe.pure ⟨unsaved, within⟩

theorem Sound.becomeLeader (sound : n.Sound fresh limit) :
    Safe room (fun result => Unsaved fresh limit n result.1 ∧ ∀ call ∈ result.2, call.Within) n.becomeLeader := by
  obtain ⟨l, shown, -⟩ := sound.log
  rw [Node.becomeLeader, shown.lastIndex, ok_bind]
  have filled : ∀ value : UInt64, Safe room (fun m : NilMap String UInt64 => m.isSome = true)
      (n.peers.foldlM (fun m peer => m.set peer value) NilMap.made) := fun value =>
    Safe.foldlM (fun m peer there => NilMap.set_safe there room peer value) n.peers rfl
  refine (filled _).bind fun nextIndex next => (filled _).bind fun matchIndex matching => ?_
  have leading : Sound fresh limit { n with
      role := .leader, leaderID := n.id, votesReceived := none, nextIndex := nextIndex, matchIndex := matchIndex,
      heartbeatElapsed := 0 } := { sound with candidate := nofun, leader := fun _ => ⟨next, matching⟩ }
  exact leading.broadcastAppendEntries.mono (fun there => there) fun _ sent =>
    ⟨⟨sent.1.sound, sent.1.persister⟩, sent.2⟩

structure Sends (fresh : Prop) (limit : Nat) (n : Node) (result : Node × List Call) : Prop where
  keeps : Keeps fresh limit n result.1
  within : ∀ call ∈ result.2, call.Within

theorem Keeps.quiet {after : Node} (keeps : Keeps fresh limit n after) : Sends fresh limit n (after, []) :=
  ⟨keeps, fun _ present => absurd present List.not_mem_nil⟩

theorem Unsaved.sends {result : Node × List Call}
    (sent : Unsaved fresh limit n result.1 ∧ ∀ call ∈ result.2, call.Within) : Sends fresh limit n result :=
  ⟨sent.1.keeps, sent.2⟩

theorem Sends.behind {m : Node} {result : Node × List Call} (held : Holds fresh limit n m true)
    (rest : Sends fresh limit m result) : Sends fresh limit n result :=
  ⟨.behind held rest.keeps, rest.within⟩

section

variable (sound : n.Sound fresh limit)

include sound

theorem Sound.startElection : Safe room (Sends fresh limit n) n.startElection := by
  obtain ⟨l, shown, -⟩ := sound.log
  refine Safe.bind (persist_safe (n := { n with currentTerm := n.currentTerm + 1, votedFor := n.id }) shown) ?_
  rintro _ (later | ⟨rest, later, items, clean⟩)
  · exact Safe.pure (Keeps.quiet ⟨{ sound with }, Or.inr ⟨rfl, rfl, rfl, rfl, rfl⟩⟩)
  · have saved := sound.saved items (n.currentTerm + 1) n.id later
    have standing : Sound fresh limit { n with
        currentTerm := n.currentTerm + 1, votedFor := n.id, persister := _, role := .candidate,
        votesReceived := some [(n.id, true)] } := { saved with candidate := fun _ => rfl, leader := nofun }
    refine standing.resetElectionTimer.bind fun m reset => ?_
    have held : Holds fresh limit n m true :=
      ⟨reset.sound, reset.steady.since ⟨rfl, rfl, rfl, rfl, rfl⟩, fun _ => clean.trans (reset.clean rfl)⟩
    obtain ⟨l, shown, -⟩ := held.sound.log
    rw [shown.lastIndex, shown.lastTerm, ok_bind, ok_bind]
    split
    · exact held.sound.becomeLeader.mono (fun there => there) fun _ sent => .behind held (Unsaved.sends sent)
    · refine Safe.pure ⟨held.keeps, fun call present => ?_⟩
      obtain ⟨peer, -, rfl⟩ := List.mem_map.mp present
      trivial

theorem Sound.tick : Safe room (Sends fresh limit n) n.tick := by
  have counted :
      ∀ {m : Node}, m.Sound fresh limit → m.persister = n.persister → n.Steady m → Holds fresh limit n m true :=
    fun sound persister steady => ⟨sound, steady, fun _ => .of_eq persister⟩
  unfold Node.tick
  split
  · dsimp only
    split
    · have beat : Sound fresh limit { n with heartbeatElapsed := 0 } := { sound with }
      refine beat.broadcastAppendEntries.mono (fun there => there) fun _ sent => ?_
      exact .behind (counted beat rfl ⟨rfl, rfl, rfl, rfl, rfl⟩) (Unsaved.sends sent)
    · exact Safe.pure (Keeps.quiet ⟨{ sound with }, Or.inl (.refl _)⟩)
  · dsimp only
    split
    · have elapsed : Sound fresh limit { n with electionElapsed := n.electionElapsed + 1 } := { sound with }
      refine elapsed.startElection.mono (fun there => there) fun _ sent => ?_
      exact .behind (counted elapsed rfl ⟨rfl, rfl, rfl, rfl, rfl⟩) sent
    · exact Safe.pure (Keeps.quiet ⟨{ sound with }, Or.inl (.refl _)⟩)

theorem Sound.stepDown (term : UInt64) :
    Safe room (Sends fresh limit n) (do let (n, _) ← n.becomeFollower term; return (n, [])) :=
  (sound.becomeFollower term).bind fun _ held => Safe.pure held.keeps.quiet

theorem Sound.sendRequestVoteReply (peer : String) (term : UInt64) (reply : RequestVoteReply) :
    Safe room (Sends fresh limit n) (n.sendRequestVoteReply peer term reply) := by
  unfold Node.sendRequestVoteReply
  split
  · exact sound.stepDown reply.term
  split
  · exact Safe.pure sound.kept.quiet
  rename_i current
  split
  · exact Safe.pure sound.kept.quiet
  -- The votes of a candidate are counted in a map that was made when it stood.
  have standing := (not_or.mp current).1
  refine (NilMap.set_safe (sound.candidate (not_not.mp standing)) room peer true).bind fun votesReceived there => ?_
  have counted : Sound fresh limit { n with votesReceived := votesReceived } :=
    { sound with candidate := fun _ => there }
  dsimp only
  split
  · exact counted.becomeLeader.mono (fun there => there) fun _ sent =>
      Unsaved.sends ⟨⟨sent.1.sound, sent.1.persister⟩, sent.2⟩
  · exact Safe.pure (Keeps.quiet ⟨counted, Or.inl (.refl _)⟩)

theorem Sound.observeTerm (term : UInt64) :
    Safe room (fun result => Holds fresh limit n result.1 result.2) (n.observeTerm term) := by
  unfold Node.observeTerm
  split
  · refine (sound.becomeFollower term).bind fun result held => Safe.pure ⟨held.sound, held.steady, fun current => ?_⟩
    exact held.clean ((Bool.and_eq_true _ _).mp current).1
  · exact Safe.pure ⟨sound, .refl n, fun _ => .refl _⟩

theorem Sound.handleRequestVote (args : RequestVoteArgs) :
    Safe room (fun result => Keeps fresh limit n result.1) (n.handleRequestVote args) := by
  refine (sound.observeTerm args.term).bind ?_
  rintro ⟨m, current⟩ held
  dsimp only at held ⊢
  have sound := held.sound
  split
  · exact Safe.pure held.keeps
  obtain ⟨l, shown, -⟩ := sound.log
  rw [shown.lastIndex, shown.lastTerm, ok_bind, ok_bind]
  split
  · exact Safe.pure held.keeps
  refine Safe.bind (persist_safe (n := { m with votedFor := args.candidateID }) shown) ?_
  rintro _ (later | ⟨rest, later, items, -⟩)
  · exact Safe.pure ⟨{ sound with }, Or.inr (held.steady.trans ⟨rfl, rfl, rfl, rfl, rfl⟩)⟩
  · have saved := sound.saved items m.currentTerm args.candidateID later
    refine saved.resetElectionTimer.bind fun n reset => Safe.pure ⟨reset.sound, Or.inr ?_⟩
    exact held.steady.trans (reset.steady.since ⟨rfl, rfl, rfl, rfl, rfl⟩)

end

theorem raise_safe {m : NilMap String UInt64} (there : m.isSome = true) (peer : String) (position : UInt64) :
    Safe room (fun after => after.isSome = true) (raise m peer position) := by
  unfold raise
  split
  · exact NilMap.set_safe there room peer position
  · exact Safe.pure there

section

variable (sound : n.Sound fresh limit)

include sound

theorem Sound.noteProgress (leading : n.role = .leader) (peer : String) (position : UInt64) :
    Safe room (Keeps fresh limit n) (n.noteProgress peer position) := by
  obtain ⟨next, matching⟩ := sound.leader leading
  refine (raise_safe matching peer position).bind fun matchIndex matching => ?_
  refine (raise_safe next peer (position + 1)).bind fun nextIndex next => ?_
  have noted : Sound fresh limit { n with matchIndex := matchIndex, nextIndex := nextIndex } :=
    { sound with leader := fun _ => ⟨next, matching⟩ }
  exact noted.maybeAdvanceCommitIndex.mono (fun there => there) fun _ moved =>
    ⟨moved.sound, Or.inl (.of_eq moved.persister)⟩

theorem Sound.sendAppendEntriesReply (peer : String) (args : AppendEntriesArgs) (reply : AppendEntriesReply) :
    Safe room (fun result => Keeps fresh limit n result.1) (n.sendAppendEntriesReply peer args reply) := by
  unfold Node.sendAppendEntriesReply
  split
  · exact (sound.becomeFollower reply.term).bind fun result held => Safe.pure held.keeps
  split
  · exact Safe.pure sound.kept
  rename_i current
  have leading : n.role = .leader := not_not.mp (not_or.mp current).1
  split
  · exact (sound.noteProgress leading peer _).bind fun n keeps => Safe.pure keeps
  split
  · obtain ⟨next, matching⟩ := sound.leader leading
    refine (NilMap.set_safe next room peer _).bind fun nextIndex next => ?_
    exact Safe.pure ⟨{ sound with leader := fun _ => ⟨next, matching⟩ }, Or.inl (.refl _)⟩
  · exact Safe.pure sound.kept

theorem Sound.sendInstallSnapshotReply (peer : String) {snap : Snapshot} (args : InstallSnapshotArgs) {stop : UInt64}
    (inside : stop ≤ snap.data.len) (reply : InstallSnapshotReply) :
    Safe room (Sends fresh limit n) (n.sendInstallSnapshotReply peer snap args stop reply) := by
  unfold Node.sendInstallSnapshotReply
  split
  · exact sound.stepDown reply.term
  split
  · exact Safe.pure sound.kept.quiet
  rename_i current
  split
  · exact Safe.pure sound.kept.quiet
  split
  · have leading : n.role = .leader := not_not.mp (not_or.mp current).1
    exact (sound.noteProgress leading peer _).bind fun n keeps => Safe.pure keeps.quiet
  · refine (sound.sendInstallSnapshotArgs args.term snap inside).bind fun next within => Safe.pure ⟨sound.kept, ?_⟩
    exact List.forall_mem_singleton.mpr within

theorem Sound.follow (leaderID : String) :
    Safe room (fun after => Holds fresh limit n after true) (n.follow leaderID) := by
  have following : Sound fresh limit { n with role := .follower, leaderID := leaderID } :=
    { sound with candidate := nofun, leader := nofun }
  refine following.resetElectionTimer.mono (fun there => there) fun _ held => ⟨held.sound, ?_, held.clean⟩
  exact held.steady.since ⟨rfl, rfl, rfl, rfl, rfl⟩

theorem Sound.commitUpTo (args : AppendEntriesArgs) : Unsaved fresh limit n (n.commitUpTo args) := by
  obtain ⟨l, shown, contiguous, below, covered⟩ := sound.log
  unfold Node.commitUpTo
  dsimp only
  generalize (if args.prevLogIndex + args.entries.len < args.leaderCommit then args.prevLogIndex + args.entries.len
    else args.leaderCommit) = newCommit
  split
  · rename_i raised
    have higher := UInt64.le_of_lt raised.2
    exact ⟨{ sound with log :=
      ⟨l, shown, contiguous, fun start => UInt64.le_trans (below start) higher, covered⟩ }, rfl⟩
  · exact ⟨sound, rfl⟩

theorem Sound.handleAppendEntries (args : AppendEntriesArgs) : Safe (limit + args.entries.items.length < 2 ^ 63)
      (fun result => Keeps fresh (limit + args.entries.items.length) n result.1) (n.handleAppendEntries args) := by
  refine (sound.observeTerm args.term).bind ?_
  rintro ⟨m, current⟩ observed
  cases current with
  | false => exact Safe.pure (observed.keeps.grow (Nat.le_add_right _ _))
  | true =>
  refine (observed.sound.follow args.leaderID).bind fun f followed => ?_
  have held := observed.trans followed
  obtain ⟨l, shown, contiguous, below, covered⟩ := held.sound.log
  have wider := held.sound.grow (Nat.le_add_right limit args.entries.items.length)
  rw [shown.termAt, ok_bind]
  split
  · exact Safe.pure (held.keeps.grow (Nat.le_add_right _ _))
  rename_i consistent
  have present : (l.termAt args.prevLogIndex).isSome = true :=
    Option.isSome_iff_exists.mpr ⟨args.prevLogTerm, not_not.mp consistent⟩
  have size := held.sound.size
  refine Safe.bind ((shown.appendAfter present args.entries).mono (by omega) fun _ spec => spec) ?_
  rintro ⟨log, changed⟩ ⟨shows', same, longer⟩
  have fits := shown.fits
  have few := args.entries.fits
  have base : (l.appendAfter args.prevLogIndex args.entries.items).1.sentinel = l.sentinel :=
    Log.appendAfterFrom_sentinel l _ _
  have numbered : (l.appendAfter args.prevLogIndex args.entries.items).1.Contiguous :=
    contiguous.appendAfter present (by
    rw [Log.entries, List.length_cons]
    omega)
  have long := Nat.le_trans longer (Nat.add_le_add_right size _)
  cases changed with
  | false =>
    -- Every incoming entry was there already, and nothing is saved.
    have kept : (l.appendAfter args.prevLogIndex args.entries.items).1 = l := Log.appendAfterFrom_same same.symm
    rw [kept] at shows'
    have unchanged : Sound fresh _ { f with log := log } :=
      { wider with log := ⟨l, shows', contiguous, below, covered⟩, size := long }
    have told := unchanged.commitUpTo args
    exact Safe.pure ⟨told.sound, Or.inl ((held.clean rfl).trans (.of_eq told.persister))⟩
  | true =>
    refine Safe.bind (persist_safe (n := { f with log := log }) shows') ?_
    rintro _ (later | ⟨rest, later, items, clean⟩)
    · exact Safe.pure (.behind held ⟨{ wider with }, Or.inr ⟨rfl, rfl, rfl, rfl, rfl⟩⟩)
    · have saved : Sound fresh _ { f with
          log := log, persister := ⟨some ⟨f.currentTerm, f.votedFor, rest⟩, f.persister.snapshot, later⟩ } :=
        { wider with
          log := ⟨_, shows', numbered, by rw [base]; exact below,
            covers_whole shows' items (by rw [base]; exact covered.reached)⟩
          term := rfl
          vote := rfl
          size := long }
      have told := saved.commitUpTo args
      exact Safe.pure ⟨told.sound, Or.inl ((held.clean rfl).trans (clean.trans (.of_eq told.persister)))⟩

theorem Sound.propose (command : Bytes) : Safe (limit + 1 < 2 ^ 63)
      (fun result => Sends fresh (limit + 1) n (result.1, result.2.2)) (n.propose command) := by
  have wider := sound.grow (Nat.le_add_right limit 1)
  unfold Node.propose
  split
  · exact Safe.pure wider.kept.quiet
  obtain ⟨l, shown, contiguous, below, covered⟩ := sound.log
  have size := sound.size
  refine Safe.bind ((shown.append ⟨0, n.currentTerm, command⟩).mono (by omega) fun _ spec => spec) ?_
  rintro ⟨log, index⟩ ⟨shows', -⟩
  have longer : log.entries.items.length = n.log.entries.items.length + 1 := by
    rw [shows'.length, shown.length]
    exact congrArg (· + 1) List.length_append
  refine Safe.bind (persist_safe (n := { n with log := log }) shows') ?_
  rintro _ (later | ⟨rest, later, items, clean⟩)
  · -- The entries that were there before are a part of what is there now.
    have inside : n.log.entries.items.length ≤ log.entries.items.length := by omega
    obtain ⟨kept, cut, part⟩ := Slice.upTo_eq inside
    dsimp only
    rw [if_neg Bool.false_ne_true, cut, ok_bind]
    have back : kept = n.log.entries := by
      refine Slice.ext ?_
      rw [part, shows', shown]
      exact List.take_left
    subst back
    exact Safe.pure (Keeps.quiet ⟨{ wider with }, Or.inr ⟨rfl, rfl, rfl, rfl, rfl⟩⟩)
  · have appended : Sound fresh (limit + 1) { n with
        log := log, persister := ⟨some ⟨n.currentTerm, n.votedFor, rest⟩, n.persister.snapshot, later⟩ } :=
      { wider with
        log := ⟨_, shows', contiguous.append _, below, covers_whole shows' items covered.reached⟩
        term := rfl
        vote := rfl
        size := by
          rw [longer]
          omega }
    refine appended.broadcastAppendEntries.bind fun result sent => Safe.pure ⟨⟨sent.1.sound, Or.inl ?_⟩, sent.2⟩
    exact clean.trans (.of_eq sent.1.persister)

theorem Sound.committedEntries (start : fresh) (first : UInt64) :
    Safe room (fun _ => True) (n.committedEntries first) := by
  obtain ⟨l, shown, -, below, -⟩ := sound.log
  unfold Node.committedEntries
  dsimp only
  generalize (if first = 0 then 1 else first) = first
  split
  · exact Safe.pure trivial
  · obtain ⟨part, done, -⟩ := shown.range first (below start)
    exact Safe.ok done trivial

theorem Sound.markApplied (index : UInt64) : Keeps fresh limit n (n.markApplied index).1 := by
  unfold Node.markApplied
  split
  · exact sound.kept
  split
  · exact sound.kept
  · exact ⟨{ sound with }, Or.inl (.refl _)⟩

theorem Sound.confirmSnapshotRestored (lastIncludedIndex : UInt64) :
    Keeps fresh limit n (n.confirmSnapshotRestored lastIncludedIndex).1 := by
  unfold Node.confirmSnapshotRestored
  split
  · exact sound.kept
  split
  · exact sound.kept
  · dsimp only
    split <;> exact ⟨{ sound with }, Or.inl (.refl _)⟩

theorem Sound.snapshotSaved {l : Log} (shown : n.log.Shows l) (snap : Snapshot)
    (above : l.sentinel.index < snap.lastIncludedIndex) (later : List Bool) :
    Sound fresh limit { n with persister := ⟨n.persister.state, some snap, later⟩ } := by
  obtain ⟨k, shown', contiguous, below, covered⟩ := sound.log
  obtain rfl : k = l := shown'.unique shown
  refine { sound with log := ⟨k, shown', contiguous, below, UInt64.le_of_lt above, ?_⟩ }
  exact covered.entries.imp_right fun more => ⟨more.1, rfl, more.2.2⟩

theorem Sound.rebased {log : RawLog} {l : Log} (shown : log.Shows l) (contiguous : l.Contiguous)
    {rest : Slice LogEntry} (items : rest.items = log.entries.items.drop 1) (snap : Snapshot)
    (base : l.sentinel.index = snap.lastIncludedIndex)
    (shorter : log.entries.items.length ≤ n.log.entries.items.length) (commitIndex : UInt64)
    (reached : fresh → snap.lastIncludedIndex ≤ commitIndex) (later : List Bool) : Sound fresh limit { n with
      log := log, commitIndex := commitIndex,
      persister := ⟨some ⟨n.currentTerm, n.votedFor, rest⟩, some snap, later⟩ } :=
  { sound with
    log := ⟨l, shown, contiguous, fun start => by rw [base]; exact reached start,
      covers_whole (n := { n with log := log }) shown items (by rw [base]; exact UInt64.le_refl _)⟩
    term := rfl
    vote := rfl
    size := Nat.le_trans shorter sound.size }

theorem Sound.createSnapshot (index : UInt64) (data : Slice UInt8) :
    Safe room (fun result => Keeps fresh limit n result.1) (n.createSnapshot index data) := by
  obtain ⟨l, shown, contiguous, -⟩ := sound.log
  unfold Node.createSnapshot
  split
  · exact Safe.pure sound.kept
  rw [shown.first, ok_bind]
  split
  · exact Safe.pure sound.kept
  rename_i ahead
  split
  · exact Safe.pure sound.kept
  split
  · exact Safe.pure sound.kept
  rename_i committed
  rw [shown.termAt, ok_bind]
  split
  · exact Safe.pure sound.kept
  rename_i term _
  rcases n.persister.saveSnapshot_cases ⟨index, term, data⟩ with ⟨later, done⟩ | ⟨later, done, clean⟩
  · rw [done]
    exact Safe.pure ⟨{ sound with }, Or.inr ⟨rfl, rfl, rfl, rfl, rfl⟩⟩
  have ready := sound.snapshotSaved shown ⟨index, term, data⟩ (UInt64.not_le.mp ahead)
  rw [done]
  obtain ⟨result, cut, outcome⟩ := shown.compact index
  dsimp only
  rw [if_neg (by decide), cut, ok_bind]
  rcases outcome with ⟨rfl, -⟩ | ⟨after, log, rfl, compacted, shows', shorter⟩
  · exact Safe.pure ⟨ready later, Or.inr ⟨rfl, rfl, rfl, rfl, rfl⟩⟩
  refine Safe.bind (persist_safe (n := { n with
    log := after, persister := ⟨n.persister.state, some ⟨index, term, data⟩, later⟩ }) shows') ?_
  rintro _ (last | ⟨rest, last, items, clean'⟩)
  · exact Safe.pure ⟨{ ready last with }, Or.inr ⟨rfl, rfl, rfl, rfl, rfl⟩⟩
  · have rebased := sound.rebased shows' (contiguous.compact compacted) items ⟨index, term, data⟩
      (Log.compact_base compacted) shorter n.commitIndex (fun _ => UInt64.not_lt.mp committed) last
    exact Safe.pure ⟨{ rebased with }, Or.inl (clean.trans clean')⟩

theorem Sound.receiveSnapshotChunk (args : InstallSnapshotArgs) :
    Safe room (fun result => Holds fresh limit n result.1 true) (n.receiveSnapshotChunk args) := by
  have held : ∀ transfer, Holds fresh limit n { n with chunkTransfer := transfer } true := fun transfer =>
    ⟨{ sound with }, ⟨rfl, rfl, rfl, rfl, rfl⟩, fun _ => .refl _⟩
  unfold Node.receiveSnapshotChunk
  split
  · exact Safe.pure (held _)
  rename_i declared
  split
  · exact Safe.pure (held _)
  rename_i transfer target
  split
  · exact Safe.pure (held _)
  dsimp only
  split
  · exact Safe.pure (held _)
  rename_i fits
  have total : transfer.totalSize = args.totalSize := by
    unfold Node.chunkTarget at target
    split at target
    · cases target
      rfl
    · split at target
      · cases target
      · split at target
        · cases target
        · rename_i same
          cases target
          simp only [not_or, not_not] at same
          exact same.2.2.1
  obtain ⟨buf, joined, -⟩ := (Slice.append_safe transfer.buf args.data).result (by
    have few := transfer.buf.fits
    have more := args.data.fits
    have large := UInt64.le_iff_toNat_le.mp (UInt64.not_lt.mp declared)
    have small := UInt64.le_iff_toNat_le.mp (UInt64.not_lt.mp fits)
    rw [UInt64.toNat_add, Slice.toNat_len, Slice.toNat_len, Nat.mod_eq_of_lt (by omega), total] at small
    have cap : (UInt64.ofNat Raft.maxSnapshotDataSize).toNat = 268435456 := rfl
    omega)
  rw [joined, ok_bind]
  split
  · exact Safe.pure (held _)
  split
  · exact Safe.pure (held _)
  · exact Safe.pure (held _)

theorem Sound.installSnapshot {l : Log} (shown : n.log.Shows l) {snap : Snapshot}
    (above : l.sentinel.index < snap.lastIncludedIndex) :
    Safe room (fun result => Keeps fresh limit n result.1) (n.installSnapshot snap) := by
  have contiguous : l.Contiguous := by
    obtain ⟨k, shown', contiguous, -⟩ := sound.log
    exact shown'.unique shown ▸ contiguous
  have ready := sound.snapshotSaved shown snap above
  unfold Node.installSnapshot
  rcases n.persister.saveSnapshot_cases snap with ⟨later, done⟩ | ⟨later, done, clean⟩
  · rw [done]
    exact Safe.pure ⟨{ sound with }, Or.inr ⟨rfl, rfl, rfl, rfl, rfl⟩⟩
  rw [done]
  obtain ⟨log, moved, shows', shorter⟩ := shown.installSnapshotBoundary snap.lastIncludedIndex snap.lastIncludedTerm
  dsimp only
  rw [if_neg (by decide), moved, ok_bind]
  refine Safe.bind (persist_safe (n := { n with
    log := log, persister := ⟨n.persister.state, some snap, later⟩ }) shows') ?_
  rintro _ (last | ⟨rest, last, items, clean'⟩)
  · exact Safe.pure ⟨{ ready last with }, Or.inr ⟨rfl, rfl, rfl, rfl, rfl⟩⟩
  · -- The commit index is raised to the new boundary if it was below.
    have rebased : ∀ commitIndex, snap.lastIncludedIndex ≤ commitIndex → _ := fun commitIndex reached =>
      sound.rebased shows' (contiguous.installSnapshotBoundary _ _) items snap
        (l.installSnapshotBoundary_base _ _) shorter commitIndex (fun _ => reached) last
    refine Safe.pure ?_
    dsimp only
    split
    · exact ⟨{ rebased _ (UInt64.le_refl _) with }, Or.inl (clean.trans clean')⟩
    · rename_i covered
      exact ⟨{ rebased _ (UInt64.not_lt.mp covered) with }, Or.inl (clean.trans clean')⟩

theorem Sound.handleInstallSnapshot (args : InstallSnapshotArgs) :
    Safe room (fun result => Keeps fresh limit n result.1) (n.handleInstallSnapshot args) := by
  refine (sound.observeTerm args.term).bind ?_
  rintro ⟨m, current⟩ observed
  cases current with
  | false => exact Safe.pure observed.keeps
  | true =>
  refine (observed.sound.follow args.leaderID).bind fun f followed => ?_
  have held := observed.trans followed
  obtain ⟨l, shown, -⟩ := held.sound.log
  rw [shown.first, ok_bind]
  split
  · refine Safe.pure (.behind held ?_)
    dsimp only
    split
    · exact ⟨{ held.sound with }, Or.inl (.refl _)⟩
    · exact held.sound.kept
  rename_i ahead
  have above := UInt64.not_le.mp ahead
  split
  · refine (held.sound.receiveSnapshotChunk args).bind ?_
    rintro ⟨g, outcome⟩ received
    cases outcome with
    | rejected | incomplete => exact Safe.pure (held.trans received).keeps
    | complete data =>
      have same : g.log = f.log := received.steady.log
      refine (received.sound.installSnapshot (same ▸ shown) ?_).mono (fun there => there) fun _ keeps =>
        .behind (held.trans received) keeps
      exact above
  · have cleared : Holds fresh limit f { f with chunkTransfer := none } true :=
      ⟨{ held.sound with }, ⟨rfl, rfl, rfl, rfl, rfl⟩, fun _ => .refl _⟩
    exact (cleared.sound.installSnapshot shown above).mono (fun there => there) fun _ keeps =>
      .behind (held.trans cleared) keeps

theorem Sound.readIndexStart :
    Safe room (fun outcome => ∀ round, outcome = .ok round → ∀ call ∈ round.calls, call.Within) n.readIndexStart := by
  obtain ⟨l, shown, -⟩ := sound.log
  unfold Node.readIndexStart
  split
  · exact Safe.pure fun _ same => by cases same
  rw [shown.first, ok_bind]
  have each : ∀ peer, Safe room (fun call => ∀ pending, call = some pending → pending.Within)
      (n.readIndexCall l.sentinel.index peer) := by
    intro peer
    unfold Node.readIndexCall
    split
    · exact Safe.pure fun _ same => by cases same
    · refine (sound.appendEntriesArgs peer).bind fun args _ => Safe.pure fun pending same => ?_
      cases same
      trivial
  refine (Safe.mapM each n.peers).bind fun calls within => Safe.pure fun round same call present => ?_
  cases same
  obtain ⟨pending, sent, same⟩ := List.mem_filterMap.mp present
  exact within pending sent call same

end

end Node

end ForgeDB.Raft.Words.Machine
