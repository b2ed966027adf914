import ForgeDB.Data.Reassembly
import ForgeDB.Raft.Healthy

/-!
Attempts to send one snapshot. Every heartbeat of a leader starts a further attempt towards a peer
that is behind, each attempt sends its next chunk once the last one was answered, and all of them feed
the one transfer in progress at the peer.
-/

namespace ForgeDB.Raft

namespace Node

def chunk (n : Node) (term : Nat) (snap : Snapshot) (number : Nat) : InstallSnapshotArgs :=
  n.sendInstallSnapshotArgs term snap (number * n.snapshotChunkSize)

def chunks (n : Node) (snap : Snapshot) : Nat := pieces snap.data.length n.snapshotChunkSize

section Chunk

variable {n : Node} {term : Nat} {snap : Snapshot} {number : Nat}

theorem chunk_data (n : Node) (term : Nat) (snap : Snapshot) (number : Nat) :
    (n.chunk term snap number).data = piece snap.data n.snapshotChunkSize number := by
  simp only [chunk, sendInstallSnapshotArgs, piece]
  split
  · rw [List.take_of_length_le (by rw [List.length_drop]), List.take_of_length_le (by rw [List.length_drop]; omega)]
  · rw [Nat.add_sub_cancel_left]

theorem chunk_final (positive : 0 < n.snapshotChunkSize) (inside : number < n.chunks snap) :
    (n.chunk term snap number).final = decide (number + 1 = n.chunks snap) := by
  have more : number + 1 < pieces snap.data.length n.snapshotChunkSize ↔
      (number + 1) * n.snapshotChunkSize < snap.data.length := succ_lt_pieces positive
  have size : (number + 1) * n.snapshotChunkSize = number * n.snapshotChunkSize + n.snapshotChunkSize :=
    Nat.succ_mul ..
  rw [Bool.eq_iff_iff, decide_eq_true_iff]
  simp only [chunk, sendInstallSnapshotArgs, beq_iff_eq]
  unfold chunks at inside ⊢
  split <;> omega

theorem chunk_end (positive : 0 < n.snapshotChunkSize) (later : number + 1 < n.chunks snap) :
    (n.chunk term snap number).offset + (n.chunk term snap number).data.length =
      (number + 1) * n.snapshotChunkSize := by
  have within := (succ_lt_pieces positive).mp later
  have size : (number + 1) * n.snapshotChunkSize = number * n.snapshotChunkSize + n.snapshotChunkSize :=
    Nat.succ_mul ..
  rw [chunk_data, piece, List.length_take, List.length_drop, Nat.min_eq_left (by omega), size]
  rfl

/-- The beginning of the payload that the chunks before a number make up, as a transfer in progress. -/
def holding (snap : Snapshot) (size count : Nat) : Option InProgressSnapshotTransfer :=
  if count = 0 then none
  else some ⟨snap.lastIncludedIndex, snap.lastIncludedTerm, snap.data.length, snap.data.take (count * size)⟩

theorem length_take_chunks {size count : Nat} (positive : 0 < size) (pending : count < pieces snap.data.length size) :
    (snap.data.take (count * size)).length = count * size := by
  rw [List.length_take, Nat.min_eq_left]
  cases count with
  | zero => simp only [Nat.zero_mul, Nat.zero_le]
  | succ previous => exact ((succ_lt_pieces positive).mp pending).le

theorem chunkTarget_chunk {leader : Node} {count : Nat} (positive : 0 < leader.snapshotChunkSize)
    (pending : count < leader.chunks snap)
    (held : number = 0 ∨ n.chunkTransfer = holding snap leader.snapshotChunkSize count) :
    n.chunkTarget (leader.chunk term snap number) =
      if expectNext count number = 0 then none
      else some ⟨snap.lastIncludedIndex, snap.lastIncludedTerm, snap.data.length,
        snap.data.take (number * leader.snapshotChunkSize)⟩ := by
  have offset : (leader.chunk term snap number).offset = number * leader.snapshotChunkSize := rfl
  unfold chunkTarget expectNext
  rw [offset]
  by_cases first : number = 0
  · subst first
    simp only [Nat.zero_mul, if_true, Nat.one_ne_zero, if_false, List.take_zero]
    rfl
  · have nonzero : number * leader.snapshotChunkSize ≠ 0 := Nat.mul_ne_zero first positive.ne'
    rw [if_neg nonzero, if_neg first, held.resolve_left first, holding]
    have length := length_take_chunks positive pending
    by_cases idle : count = 0
    · have other : ¬number = count := fun same => first (same.trans idle)
      simp only [if_pos idle, if_neg other, if_true]
    · simp only [if_neg idle, length]
      by_cases next : number = count
      · subst next
        simp only [chunk, sendInstallSnapshotArgs, ne_eq, not_true_eq_false, or_self, if_false, if_true,
          Nat.add_eq_zero_iff, Nat.one_ne_zero, and_false]
      · have other : count * leader.snapshotChunkSize ≠ number * leader.snapshotChunkSize := by
          intro same
          exact next (Nat.eq_of_mul_eq_mul_right positive same.symm)
        simp only [ne_eq, other, not_false_eq_true, or_true, if_true, next, if_false]

theorem receiveSnapshotChunk_chunk {leader : Node} {count : Nat} (positive : 0 < leader.snapshotChunkSize)
    (fits : snap.data.length ≤ maxSnapshotDataSize) (pending : count < leader.chunks snap)
    (inside : number < leader.chunks snap)
    (held : number = 0 ∨ n.chunkTransfer = holding snap leader.snapshotChunkSize count) :
    (n.receiveSnapshotChunk (leader.chunk term snap number)).2 =
        (if expectNext count number = 0 then .rejected
        else if expectNext count number = leader.chunks snap then .complete snap.data else .incomplete) ∧
      (expectNext count number ≠ leader.chunks snap →
        (n.receiveSnapshotChunk (leader.chunk term snap number)).1.chunkTransfer =
          holding snap leader.snapshotChunkSize (expectNext count number)) := by
  have target := @chunkTarget_chunk n term snap number leader count positive pending held
  have final := @chunk_final leader term snap number positive inside
  have data := leader.chunk_data term snap number
  have total : (leader.chunk term snap number).totalSize = snap.data.length := rfl
  have sum : (leader.chunk term snap number).checksum = checksum (leader.chunk term snap number).data := rfl
  unfold receiveSnapshotChunk
  rw [total, if_neg (by omega), target]
  by_cases refused : expectNext count number = 0
  · simp only [refused, if_true]
    exact ⟨trivial, fun _ => rfl⟩
  have next := expectNext_taken refused
  have grown := take_append_piece snap.data leader.snapshotChunkSize number
  have short : (snap.data.take ((number + 1) * leader.snapshotChunkSize)).length ≤ snap.data.length :=
    List.length_take_le' ..
  rw [next]
  simp only [sum, ne_eq, not_true_eq_false, if_false, ← List.length_append, data, grown, final,
    Nat.not_lt_of_le short, Nat.succ_ne_zero]
  by_cases last : number + 1 = leader.chunks snap
  · have whole : snap.data.take ((number + 1) * leader.snapshotChunkSize) = snap.data := by
      have more := @succ_lt_pieces snap.data.length leader.snapshotChunkSize number positive
      rw [List.take_of_length_le]
      unfold chunks at last
      omega
    simp only [last, decide_true, Bool.not_true, Bool.false_eq_true, if_false, if_true, not_true_eq_false,
      false_implies, and_true]
    rw [← last, whole, if_neg (fun other => other rfl)]
  · simp only [last, decide_false, Bool.not_false, if_true, if_false]
    exact ⟨trivial, fun _ => rfl⟩

end Chunk

end Node

inductive Attempt where
  | sent (args : InstallSnapshotArgs)
  | answered (args : InstallSnapshotArgs) (reply : InstallSnapshotReply)
  | finished
  deriving DecidableEq

def Attempt.next : List Call → Attempt
  | [.installSnapshot _ _ args] => .sent args
  | _ => .finished

structure Transfers where
  leader : Node
  follower : Node
  attempts : List Attempt

inductive TransferAction where
  | start
  | deliver (attempt : Nat)
  | answer (attempt : Nat)

namespace Transfers

def step (peer : String) (term : Nat) (snap : Snapshot) (s : Transfers) : TransferAction → Option Transfers
  | .start => some { s with attempts := s.attempts ++ [.sent (s.leader.sendInstallSnapshotArgs term snap 0)] }
  | .deliver i =>
    match s.attempts[i]? with
    | some (.sent args) =>
      let (follower, reply) := s.follower.handleInstallSnapshot args
      some { s with follower := follower, attempts := s.attempts.set i (.answered args reply) }
    | _ => none
  | .answer i =>
    match s.attempts[i]? with
    | some (.answered args reply) =>
      let (leader, calls) := s.leader.sendInstallSnapshotReply peer snap args reply
      some { s with leader := leader, attempts := s.attempts.set i (.next calls) }
    | _ => none

def exec (peer : String) (term : Nat) (snap : Snapshot) (s : Transfers) (actions : List TransferAction) :
    Option Transfers :=
  actions.foldlM (step peer term snap) s

def schedule (actions : List TransferAction) : List Nat :=
  actions.filterMap fun
    | .deliver i => some i
    | _ => none

structure Ready (term : Nat) (s : Transfers) : Prop where
  leading : s.leader.role = .leader
  current : s.leader.currentTerm = term
  positive : 0 < s.leader.snapshotChunkSize
  following : s.follower.currentTerm ≤ term
  healthy : s.follower.persister.Healthy
  fresh : s.attempts = []

/-- What the peer has of the snapshot after some chunks arrived: it was ahead anyway, or it has installed
it, or it holds the chunks that came in a row last. -/
inductive Standing (start : Transfers) (snap : Snapshot) (arrivals : List Nat) (n : Node) : Prop where
  | ahead (before : snap.lastIncludedIndex ≤ start.follower.log.sentinel.index)
    (now : snap.lastIncludedIndex ≤ n.log.sentinel.index) : Standing start snap arrivals n
  | installed (before : start.follower.log.sentinel.index < snap.lastIncludedIndex)
    (fits : snap.data.length ≤ maxSnapshotDataSize) (row : List.range (start.leader.chunks snap) <:+: arrivals)
    (boundary : n.log.sentinel = ⟨snap.lastIncludedIndex, snap.lastIncludedTerm, []⟩)
    (payload : n.snapshotData = snap.data) : Standing start snap arrivals n
  | missing (before : start.follower.log.sentinel.index < snap.lastIncludedIndex)
    (now : n.log.sentinel.index < snap.lastIncludedIndex)
    (broken : snap.data.length ≤ maxSnapshotDataSize → ¬List.range (start.leader.chunks snap) <:+: arrivals)
    (held : snap.data.length ≤ maxSnapshotDataSize → arrivals ≠ [] →
      n.chunkTransfer = Node.holding snap start.leader.snapshotChunkSize (expectAfter arrivals)) :
    Standing start snap arrivals n

section Delivery

variable {start : Transfers} {snap : Snapshot} {arrivals : List Nat} {n : Node} {term number : Nat}

theorem receiveSnapshotChunk_oversized {args : InstallSnapshotArgs} (large : maxSnapshotDataSize < args.totalSize) :
    n.receiveSnapshotChunk args = (n, .rejected) := by
  rw [Node.receiveSnapshotChunk, if_pos large]

theorem Standing.deliver (positive : 0 < start.leader.snapshotChunkSize) (current : n.currentTerm ≤ term)
    (healthy : n.persister.Healthy) (inside : number < start.leader.chunks snap)
    (first : arrivals = [] → number = 0) (standing : Standing start snap arrivals n) :
    let served := n.handleInstallSnapshot (start.leader.chunk term snap number)
    served.2.term = term ∧ served.1.currentTerm = term ∧ served.1.persister.Healthy ∧
      Standing start snap (arrivals ++ [number]) served.1 := by
  intro served
  have ended : (start.leader.chunk term snap number).lastIncludedIndex = snap.lastIncludedIndex := rfl
  cases standing with
  | ahead before now =>
    obtain ⟨reply, same, healthy, log, _⟩ :=
      Node.handleInstallSnapshot_behind (start.leader.chunk term snap number) healthy current now
    exact ⟨congrArg InstallSnapshotReply.term reply, same, healthy, .ahead before (log ▸ now)⟩
  | installed before fits row boundary payload =>
    obtain ⟨reply, same, healthy, log, data⟩ :=
      Node.handleInstallSnapshot_behind (start.leader.chunk term snap number) healthy current
        (by rw [boundary, ended])
    exact ⟨congrArg InstallSnapshotReply.term reply, same, healthy,
      .installed before fits (row.trans (List.prefix_append _ _).isInfix) (log ▸ boundary) (data.trans payload)⟩
  | missing before now broken held =>
    obtain ⟨same, healthy, reply, outcome⟩ :=
      Node.handleInstallSnapshot_ahead (start.leader.chunk term snap number) healthy current now rfl
    refine ⟨reply, same, healthy, ?_⟩
    by_cases fits : snap.data.length ≤ maxSnapshotDataSize
    · have pending := expectAfter_lt (broken fits)
      have ready : number = 0 ∨
          n.chunkTransfer = Node.holding snap start.leader.snapshotChunkSize (expectAfter arrivals) := by
        by_cases none : arrivals = []
        · exact Or.inl (first none)
        · exact Or.inr (held fits none)
      obtain ⟨result, transfer⟩ :=
        @Node.receiveSnapshotChunk_chunk n term snap number start.leader _ positive fits pending inside ready
      have row : List.range (start.leader.chunks snap) <:+: arrivals ++ [number] ↔ _ :=
        range_infix_concat pieces_pos
      rcases received : n.receiveSnapshotChunk (start.leader.chunk term snap number) with ⟨m, kind⟩
      rw [received] at outcome result transfer
      rw [← expectAfter_concat] at result transfer row
      -- The chunk completes the row exactly when it completes the payload.
      by_cases complete : expectAfter (arrivals ++ [number]) = start.leader.chunks snap
      · rw [complete, if_neg (Nat.ne_zero_of_lt inside), if_pos rfl] at result
        dsimp only at result
        subst result
        obtain ⟨_, payload, log⟩ := outcome
        refine .installed before fits (row.mpr (Or.inr complete.symm)) ?_ payload
        rw [log, Log.installSnapshotBoundary_sentinel]
        rfl
      · have still : ¬List.range (start.leader.chunks snap) <:+: arrivals ++ [number] := fun done =>
          (row.mp done).elim (broken fits) (fun same => complete same.symm)
        have kept : served.1.kept = { n.kept with chunkTransfer := m.chunkTransfer } := by
          rw [if_neg complete] at result
          split at result <;> subst result <;> exact outcome.2
        have log : served.1.log = n.log := congrArg Kept.log kept
        exact .missing before (log ▸ now) (fun _ => still)
          (fun _ _ => (congrArg Kept.chunkTransfer kept).trans (transfer complete))
    · have large : maxSnapshotDataSize < (start.leader.chunk term snap number).totalSize := Nat.lt_of_not_le fits
      rw [receiveSnapshotChunk_oversized large] at outcome
      have log : served.1.log = n.log := congrArg Kept.log outcome.2
      exact .missing before (log ▸ now) (fun fit => absurd fit fits) (fun fit => absurd fit fits)

end Delivery

end Transfers

theorem Node.sendInstallSnapshotReply_cases {n : Node} {peer : String} {snap : Snapshot} {args : InstallSnapshotArgs}
    {reply : InstallSnapshotReply} (leading : n.role = .leader) (current : n.currentTerm = args.term)
    (same : reply.term = args.term) :
    let resumed := n.sendInstallSnapshotReply peer snap args reply
    resumed.1.role = .leader ∧ resumed.1.currentTerm = n.currentTerm ∧ resumed.1.id = n.id ∧
      resumed.1.snapshotChunkSize = n.snapshotChunkSize ∧
      (resumed.2 = [] ∨ args.final = false ∧ resumed.2 =
        [.installSnapshot peer snap (n.sendInstallSnapshotArgs args.term snap (args.offset + args.data.length))]) := by
  have noted : ∀ position, (n.noteProgress peer position).maybeAdvanceCommitIndex.role = n.role ∧
      (n.noteProgress peer position).maybeAdvanceCommitIndex.currentTerm = n.currentTerm ∧
      (n.noteProgress peer position).maybeAdvanceCommitIndex.id = n.id ∧
      (n.noteProgress peer position).maybeAdvanceCommitIndex.snapshotChunkSize = n.snapshotChunkSize := by
    intro position
    obtain ⟨role, term, _⟩ := (n.noteProgress peer position).maybeAdvanceCommitIndex_frame
    obtain ⟨sameRole, sameTerm, _⟩ := n.noteProgress_frame peer position
    have kept := (Node.maybeAdvanceCommitIndex_kept _).trans (n.noteProgress_kept peer position)
    exact ⟨role.trans sameRole, term.trans sameTerm, congrArg Kept.id kept, congrArg Kept.snapshotChunkSize kept⟩
  simp only [Node.sendInstallSnapshotReply, leading, current, same, lt_irrefl, if_false, ne_eq, not_true_eq_false,
    or_self]
  split
  · exact ⟨leading, current, rfl, rfl, Or.inl rfl⟩
  split
  · obtain ⟨role, term, id, size⟩ := noted snap.lastIncludedIndex
    exact ⟨role.trans leading, term.trans current, id, size, Or.inl rfl⟩
  · rename_i more
    exact ⟨leading, current, rfl, rfl, Or.inr ⟨Bool.not_eq_true _ ▸ more, rfl⟩⟩

namespace Transfers

/-- Where an attempt stands once so many of its chunks have reached the peer. -/
def Reached (leader : Node) (term : Nat) (snap : Snapshot) (count : Nat) : Attempt → Prop
  | .sent args => count < leader.chunks snap ∧ args = leader.chunk term snap count
  | .answered args reply => ∃ number, count = number + 1 ∧ number < leader.chunks snap ∧
    args = leader.chunk term snap number ∧ reply.term = term
  | .finished => True

structure Tracks (term : Nat) (snap : Snapshot) (start : Transfers) (served : List Nat) (s : Transfers) : Prop where
  leading : s.leader.role = .leader
  current : s.leader.currentTerm = term
  id : s.leader.id = start.leader.id
  size : s.leader.snapshotChunkSize = start.leader.snapshotChunkSize
  following : s.follower.currentTerm ≤ term
  healthy : s.follower.persister.Healthy
  attempts : ∀ i attempt, s.attempts[i]? = some attempt → Reached start.leader term snap (served.count i) attempt
  unknown : ∀ i, s.attempts.length ≤ i → served.count i = 0
  standing : Standing start snap (turns served) s.follower

section Run

variable {peer : String} {term : Nat} {snap : Snapshot} {start s after : Transfers} {served : List Nat}

theorem Tracks.begin (ready : start.Ready term) : Tracks term snap start [] start where
  leading := ready.leading
  current := ready.current
  id := rfl
  size := rfl
  following := ready.following
  healthy := ready.healthy
  attempts i attempt found := by
    rw [ready.fresh] at found
    cases found
  unknown i _ := rfl
  standing := by
    rcases Nat.lt_or_ge start.follower.log.sentinel.index snap.lastIncludedIndex with before | before
    · refine .missing before before (fun _ row => ?_) (fun _ some => absurd rfl some)
      exact Nat.ne_of_gt pieces_pos (List.range_eq_nil.mp (List.infix_nil.mp row))
    · exact .ahead before before

theorem Tracks.args (tracks : Tracks term snap start served s) (offset : Nat) :
    s.leader.sendInstallSnapshotArgs term snap offset = start.leader.sendInstallSnapshotArgs term snap offset := by
  simp only [Node.sendInstallSnapshotArgs, tracks.id, tracks.size]

theorem Tracks.launch (tracks : Tracks term snap start served s) :
    Tracks term snap start served
      { s with attempts := s.attempts ++ [.sent (s.leader.sendInstallSnapshotArgs term snap 0)] } where
  leading := tracks.leading
  current := tracks.current
  id := tracks.id
  size := tracks.size
  following := tracks.following
  healthy := tracks.healthy
  attempts i attempt found := by
    rcases Nat.lt_or_ge i s.attempts.length with old | new
    · rw [List.getElem?_append_left old] at found
      exact tracks.attempts i attempt found
    · rw [List.getElem?_append_right new, List.getElem?_singleton] at found
      split at found
      · cases found
        rw [tracks.unknown i new, tracks.args 0]
        refine ⟨pieces_pos, ?_⟩
        rw [Node.chunk, Nat.zero_mul]
      · cases found
  unknown i far := by
    rw [List.length_append] at far
    exact tracks.unknown i (Nat.le_of_add_right_le far)
  standing := tracks.standing

theorem Tracks.set {i : Nat} {old : Attempt} {more : List Nat} (tracks : Tracks term snap start served s)
    (moved : Attempt) (found : s.attempts[i]? = some old) (others : ∀ j, j ≠ i → more.count j = served.count j)
    (reached : Reached start.leader term snap (more.count i) moved) :
    (∀ j attempt, (s.attempts.set i moved)[j]? = some attempt → Reached start.leader term snap (more.count j) attempt) ∧
      ∀ j, (s.attempts.set i moved).length ≤ j → more.count j = 0 := by
  have inside : i < s.attempts.length := (List.getElem?_eq_some_iff.mp found).1
  refine ⟨fun j attempt present => ?_, fun j far => ?_⟩
  · rw [List.getElem?_set] at present
    split at present
    · rename_i same
      subst same
      cases present
      exact reached
    · rename_i other
      rw [others j (fun same => other same.symm)]
      exact tracks.attempts j attempt present
  · rw [List.length_set] at far
    rw [others j (by omega)]
    exact tracks.unknown j far

theorem Tracks.deliver {i : Nat} {args : InstallSnapshotArgs} (positive : 0 < start.leader.snapshotChunkSize)
    (tracks : Tracks term snap start served s) (found : s.attempts[i]? = some (.sent args)) :
    Tracks term snap start (served ++ [i])
      { s with
        follower := (s.follower.handleInstallSnapshot args).1
        attempts := s.attempts.set i (.answered args (s.follower.handleInstallSnapshot args).2) } := by
  obtain ⟨inside, rfl⟩ := tracks.attempts i _ found
  have first : turns served = [] → served.count i = 0 := by
    intro none
    rw [turns_eq_nil none]
    rfl
  obtain ⟨reply, same, healthy, standing⟩ :=
    tracks.standing.deliver positive tracks.following tracks.healthy inside first
  have others : ∀ j, j ≠ i → (served ++ [i]).count j = served.count j := by
    intro j other
    rw [List.count_append, List.count_singleton, if_neg (by simpa using other.symm), Nat.add_zero]
  have counted : (served ++ [i]).count i = served.count i + 1 := by
    rw [List.count_append, List.count_singleton_self]
  obtain ⟨attempts, unknown⟩ := tracks.set (.answered _ _) found others ⟨_, counted, inside, rfl, reply⟩
  refine ⟨tracks.leading, tracks.current, tracks.id, tracks.size, same.le, healthy, attempts, unknown, ?_⟩
  rw [turns_concat]
  exact standing

theorem Tracks.answer {i : Nat} {args : InstallSnapshotArgs} {reply : InstallSnapshotReply}
    (positive : 0 < start.leader.snapshotChunkSize) (tracks : Tracks term snap start served s)
    (found : s.attempts[i]? = some (.answered args reply)) :
    Tracks term snap start served
      { s with
        leader := (s.leader.sendInstallSnapshotReply peer snap args reply).1
        attempts := s.attempts.set i (.next (s.leader.sendInstallSnapshotReply peer snap args reply).2) } := by
  obtain ⟨number, counted, inside, rfl, same⟩ := tracks.attempts i _ found
  obtain ⟨leading, current, id, size, calls⟩ :=
    @Node.sendInstallSnapshotReply_cases s.leader peer snap (start.leader.chunk term snap number) reply tracks.leading
      tracks.current same
  have reached : Reached start.leader term snap (served.count i)
      (.next (s.leader.sendInstallSnapshotReply peer snap (start.leader.chunk term snap number) reply).2) := by
    rcases calls with none | ⟨more, next⟩
    · rw [none]
      trivial
    · rw [Node.chunk_final positive inside, decide_eq_false_iff_not] at more
      have later : number + 1 < start.leader.chunks snap := by omega
      rw [next, counted]
      refine ⟨later, (tracks.args _).trans ?_⟩
      rw [Node.chunk_end positive later]
      rfl
  obtain ⟨attempts, unknown⟩ := tracks.set (.next _) found (fun _ _ => rfl) reached
  exact ⟨leading, current.trans tracks.current, id.trans tracks.id, size.trans tracks.size, tracks.following,
    tracks.healthy, attempts, unknown, tracks.standing⟩

theorem schedule_concat (actions : List TransferAction) (action : TransferAction) :
    schedule (actions ++ [action]) = schedule actions ++ schedule [action] :=
  List.filterMap_append ..

theorem Tracks.run (ready : start.Ready term) {actions : List TransferAction}
    (run : start.exec peer term snap actions = some s) : Tracks term snap start (schedule actions) s := by
  induction actions using List.reverseRecOn generalizing s with
  | nil =>
    cases run
    exact Tracks.begin ready
  | append_singleton actions action ih =>
    rw [exec, List.foldlM_append, Option.bind_eq_bind, Option.bind_eq_some_iff] at run
    obtain ⟨middle, before, last⟩ := run
    obtain ⟨next, taken, rest⟩ := Option.bind_eq_some_iff.mp last
    cases rest
    have tracks := ih before
    rw [schedule_concat]
    cases action with
    | start =>
      cases taken
      rw [show schedule [TransferAction.start] = [] from rfl, List.append_nil]
      exact tracks.launch
    | deliver i =>
      simp only [step] at taken
      split at taken <;> cases taken
      rename_i args found
      exact tracks.deliver ready.positive found
    | answer i =>
      simp only [step] at taken
      split at taken <;> cases taken
      rename_i args reply found
      rw [show schedule [TransferAction.answer i] = [] from rfl, List.append_nil]
      exact tracks.answer ready.positive found

/-- The peer ends up with the snapshot exactly when its chunks reached it in a row, from whichever attempts. -/
theorem covered_iff (ready : start.Ready term) {actions : List TransferAction}
    (run : start.exec peer term snap actions = some s) :
    snap.lastIncludedIndex ≤ s.follower.log.sentinel.index ↔
      snap.lastIncludedIndex ≤ start.follower.log.sentinel.index ∨
        snap.data.length ≤ maxSnapshotDataSize ∧
          List.range (start.leader.chunks snap) <:+: turns (schedule actions) := by
  cases (Tracks.run ready run).standing with
  | ahead before now => exact iff_of_true now (Or.inl before)
  | installed before fits row boundary payload =>
    refine iff_of_true ?_ (Or.inr ⟨fits, row⟩)
    rw [boundary]
  | missing before now broken held =>
    refine iff_of_false (Nat.not_le_of_lt now) ?_
    rintro (already | ⟨fits, row⟩)
    · exact Nat.not_le_of_lt before already
    · exact broken fits row

end Run

/-- A leader of three nodes that has compacted its only entry into three bytes and sends them one by one, and a
node that has been away. -/
def between : Transfers where
  leader := ((newNode (Cluster.bootOptions ["a", "b", "c"] 1 "a")).toOption.getD default).performAll
    [.tick, .resume (.requestVote "b" ⟨1, "a", 0, 0⟩) (.requestVote ⟨1, true⟩), .propose [7],
      .resume (.appendEntries "b" ⟨1, "a", 0, 0, [⟨1, 1, [7]⟩], 0⟩) (.appendEntries ⟨1, true⟩), .markApplied 1,
      .createSnapshot 1 [1, 2, 3]]
  follower := (newNode (Cluster.bootOptions ["a", "b", "c"] 1 "c")).toOption.getD default
  attempts := []

theorem between_ready : between.Ready 1 where
  leading := by decide
  current := by decide
  positive := by decide
  following := by decide
  healthy := (by decide : true ∉ between.follower.persister.faults)
  fresh := rfl

def twoAttempts (order : List Nat) : List TransferAction :=
  .start :: .start :: order.flatMap fun i => [.deliver i, .answer i]

/-- The second attempt is not interrupted by the first, and the first then finds its work done. -/
theorem covered_iff_uninterrupted :
    ∃ s, between.exec "c" 1 ⟨1, 1, [1, 2, 3]⟩ (twoAttempts [0, 1, 1, 1, 0, 0]) = some s ∧
      1 ≤ s.follower.log.sentinel.index := by
  obtain ⟨s, run⟩ : ∃ s, between.exec "c" 1 ⟨1, 1, [1, 2, 3]⟩ (twoAttempts [0, 1, 1, 1, 0, 0]) = some s := ⟨_, rfl⟩
  exact ⟨s, run, (covered_iff between_ready run).mpr (Or.inr ⟨by decide, by decide⟩)⟩

/-- Two attempts in lockstep spoil each other: both have ended and the peer has nothing. -/
theorem lockstep_installs_nothing :
    between.Ready 1 ∧ (∃ args, between.leader.broadcastCall "c" = .installSnapshot "c" ⟨1, 1, [1, 2, 3]⟩ args) ∧
      ∃ s, between.exec "c" 1 ⟨1, 1, [1, 2, 3]⟩ (twoAttempts [0, 1, 0, 1, 0]) = some s ∧
        s.attempts = [.finished, .finished] ∧ s.follower.log.sentinel.index = 0 ∧ s.follower.chunkTransfer = none :=
  ⟨between_ready, ⟨_, rfl⟩, _, rfl, by decide, by decide, by decide⟩

end Transfers

end ForgeDB.Raft
