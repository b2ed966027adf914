import ForgeDB.Raft.Traffic

/-!
The bytes of snapshots. Every payload a node holds, is about to restore, is assembling from chunks or has sent
was good when a snapshot was created. What good means is left open, except that two good payloads of one index
can be cut and joined.
-/

namespace ForgeDB.Raft

/-- A node's own payloads: the one behind its log, the one on disk, the one to be restored, and the
beginning of the one it is receiving. -/
structure Kept.Carries (good : Nat → Bytes → Prop) (k : Kept) : Prop where
  boundary : 0 < k.log.sentinel.index → good k.log.sentinel.index k.snapshotData
  saved : ∀ snap, k.snapshot = some snap → good snap.lastIncludedIndex snap.data
  pending : ∀ snap, k.pendingSnapshot = some snap → good snap.lastIncludedIndex snap.data
  transfer : ∀ transfer, k.chunkTransfer = some transfer → ∃ data, good transfer.lastIncludedIndex data ∧
    transfer.totalSize = data.length ∧ transfer.buf <+: data

def Call.Carries (good : Nat → Bytes → Prop) : Call → Prop
  | .installSnapshot _ snap args => (0 < snap.lastIncludedIndex → good snap.lastIncludedIndex snap.data) ∧
    args.lastIncludedIndex = snap.lastIncludedIndex ∧ args.chunked = true ∧
    args.totalSize = snap.data.length ∧ args.data <+: snap.data.drop args.offset
  | _ => True

theorem Kept.Carries.mono {good better : Nat → Bytes → Prop} {k : Kept}
    (weaker : ∀ index data, good index data → better index data) (carries : k.Carries good) : k.Carries better where
  boundary positive := weaker _ _ (carries.boundary positive)
  saved snap present := weaker _ _ (carries.saved snap present)
  pending snap present := weaker _ _ (carries.pending snap present)
  transfer transfer present := (carries.transfer transfer present).imp fun _ known => known.imp_left (weaker _ _)

theorem Call.Carries.mono {good better : Nat → Bytes → Prop} {call : Call}
    (weaker : ∀ index data, good index data → better index data) (carries : call.Carries good) :
    call.Carries better := by
  cases call with
  | requestVote | appendEntries => exact carries
  | installSnapshot peer snap args => exact carries.imp_left fun good positive => weaker _ _ (good positive)

namespace Node

theorem markApplied_cases (n : Node) (index : Nat) :
    (n.lastApplied < index ∧ index ≤ n.commitIndex ∧
      n.markApplied index = ({ n with lastApplied := index }.notifyApplied, .ok ())) ∨
      ∃ error, n.markApplied index = (n, .error error) := by
  unfold markApplied
  split
  · exact Or.inr ⟨_, rfl⟩
  split
  · exact Or.inr ⟨_, rfl⟩
  · exact Or.inl ⟨by omega, by omega, rfl⟩

theorem confirmSnapshotRestored_cases (n : Node) (index : Nat) :
    (∃ snap, n.pendingSnapshot = some snap ∧ snap.lastIncludedIndex = index ∧ index ≤ n.commitIndex ∧
      (n.confirmSnapshotRestored index).2 = .ok () ∧ (n.confirmSnapshotRestored index).1.kept =
        { n.kept with
          lastApplied := max n.lastApplied index
          appliedCh := n.appliedCh || n.lastApplied < index
          pendingSnapshot := none }) ∨
      ∃ error, n.confirmSnapshotRestored index = (n, .error error) := by
  unfold confirmSnapshotRestored
  split
  · exact Or.inr ⟨_, rfl⟩
  split
  · exact Or.inr ⟨_, rfl⟩
  rename_i wanted committed
  simp only [ne_eq, not_not, Option.map_eq_some_iff] at wanted
  obtain ⟨snap, pending, rfl⟩ := wanted
  refine Or.inl ⟨snap, pending, rfl, by omega, rfl, ?_⟩
  split
  · rename_i behind
    simp only [kept, notifyApplied, Nat.max_eq_right behind.le, behind, decide_true, Bool.or_true]
  · rename_i ahead
    simp only [kept, Nat.max_eq_left (Nat.le_of_not_lt ahead), ahead, decide_false, Bool.or_false]

theorem createSnapshot_kept (n : Node) (index : Nat) (data : Bytes) :
    (n.createSnapshot index data).1.kept = n.kept ∨
      ∃ term, n.log.sentinel.index < index ∧ index ≤ n.lastApplied ∧ index ≤ n.commitIndex ∧
        ((n.createSnapshot index data).1.kept = { n.kept with snapshot := some ⟨index, term, data⟩ } ∨
          (n.createSnapshot index data).1.kept =
            { n.kept with
              snapshot := some ⟨index, term, data⟩
              snapshotData := data
              log := ⟨⟨index, term, []⟩, n.log.rest.drop (index - n.log.sentinel.index)⟩ }) := by
  rcases n.createSnapshot_cases index data with ⟨later, same⟩ | ⟨term, later, above, applied, committed, _, same | same⟩
  · rw [same]
    exact Or.inl rfl
  · rw [same]
    exact Or.inr ⟨term, above, applied, committed, Or.inl rfl⟩
  · rw [same]
    exact Or.inr ⟨term, above, applied, committed, Or.inr rfl⟩

theorem raised_kept (n : Node) (raise : Prop) [Decidable raise] (commit : Nat) :
    (if raise then { n with commitIndex := commit }.notifyCommit else n).kept = n.kept := by
  split <;> rfl

theorem handleAppendEntries_kept (n : Node) (args : AppendEntriesArgs) :
    ∃ rest, (n.handleAppendEntries args).1.kept = { n.kept with log := ⟨n.log.sentinel, rest⟩ } := by
  have observed := n.observeTerm_kept args.term
  rcases shape : n.observeTerm args.term with ⟨m, accepted⟩
  rw [shape] at observed
  have followed : (m.follow args.leaderID).kept = n.kept := (m.follow_kept args.leaderID).trans observed
  have unchanged : ∀ k : Node, k.kept = n.kept → ∃ rest, k.kept = { n.kept with log := ⟨n.log.sentinel, rest⟩ } :=
    fun k same => ⟨n.log.rest, same⟩
  simp only [handleAppendEntries, shape]
  split
  · exact unchanged _ observed
  generalize m.follow args.leaderID = f at followed ⊢
  split
  · exact unchanged _ followed
  have sentinel : (f.log.appendAfter args.prevLogIndex args.entries).1.sentinel = n.log.sentinel :=
    (f.log.appendAfterFrom_sentinel _ _).trans (congrArg (fun k => k.log.sentinel) followed)
  rcases taken : f.log.appendAfter args.prevLogIndex args.entries with ⟨log, changed⟩
  rw [taken] at sentinel
  dsimp only at sentinel
  have appended : ∀ k : Node, k.kept = { f.kept with log := log } →
      ∃ rest, k.kept = { n.kept with log := ⟨n.log.sentinel, rest⟩ } := by
    intro k same
    rw [followed] at same
    refine ⟨log.rest, same.trans ?_⟩
    rw [← sentinel]
  cases changed
  · simp only [Bool.false_eq_true, if_false, Bool.not_true]
    exact unchanged _ ((raised_kept f _ _).trans followed)
  · rcases persist_cases { f with log := log } with ⟨later, saved⟩ | ⟨later, saved⟩
    · simp only [saved, if_true, Bool.not_false]
      exact unchanged _ followed
    · simp only [saved, if_true, Bool.not_true, Bool.false_eq_true, if_false]
      exact appended _ (raised_kept _ _ _)

theorem chunkTarget_kept {n m : Node} (same : m.kept = n.kept) (args : InstallSnapshotArgs) :
    m.chunkTarget args = n.chunkTarget args := by
  have transfer : m.chunkTransfer = n.chunkTransfer := congrArg Kept.chunkTransfer same
  simp only [chunkTarget, transfer]

theorem receiveSnapshotChunk_cases (n : Node) (args : InstallSnapshotArgs) :
    ((n.receiveSnapshotChunk args).2 = .rejected ∧ ∃ transfer, (transfer = none ∨ transfer = n.chunkTransfer) ∧
      (n.receiveSnapshotChunk args).1.kept = { n.kept with chunkTransfer := transfer }) ∨
    ∃ target, n.chunkTarget args = some target ∧
      (n.receiveSnapshotChunk args).1.kept =
        { n.kept with chunkTransfer := some { target with buf := target.buf ++ args.data } } ∧
      ((n.receiveSnapshotChunk args).2 = .incomplete ∧ args.final = false ∨
        (n.receiveSnapshotChunk args).2 = .complete (target.buf ++ args.data) ∧
          (target.buf ++ args.data).length = target.totalSize) := by
  have path := n.receiveSnapshotChunk_path args
  generalize n.receiveSnapshotChunk args = result at path
  cases path with
  | oversized large => exact Or.inl ⟨rfl, n.chunkTransfer, Or.inr rfl, rfl⟩
  | discarded fits => exact Or.inl ⟨rfl, none, Or.inl rfl, rfl⟩
  | taken fits target open_ => exact Or.inr ⟨_, target, rfl, Or.inl ⟨rfl, open_⟩⟩
  | completed fits target last whole => exact Or.inr ⟨_, target, rfl, Or.inr ⟨rfl, whole⟩⟩

theorem installSnapshot_cases (n : Node) (snap : Snapshot) :
    (n.installSnapshot snap).1.currentTerm = n.currentTerm ∧
      ((n.installSnapshot snap).2.success = false ∧
          ((n.installSnapshot snap).1.kept = { n.kept with chunkTransfer := none } ∨
            (n.installSnapshot snap).1.kept = { n.kept with chunkTransfer := none, snapshot := some snap }) ∨
        (n.installSnapshot snap).2.success = true ∧ (n.installSnapshot snap).1.kept =
          { n.kept with
            chunkTransfer := none
            snapshot := some snap
            snapshotData := snap.data
            pendingSnapshot := some snap
            log := n.log.installSnapshotBoundary snap.lastIncludedIndex snap.lastIncludedTerm }) := by
  rcases n.installSnapshot_shape snap with ⟨later, saved, kind, same⟩ | ⟨later, commitCh, same⟩
  · rw [same]
    rcases kind with rfl | rfl
    · exact ⟨rfl, Or.inl ⟨rfl, Or.inl rfl⟩⟩
    · exact ⟨rfl, Or.inl ⟨rfl, Or.inr rfl⟩⟩
  · rw [same]
    exact ⟨rfl, Or.inr ⟨rfl, rfl⟩⟩

def Delivers (n : Node) (args : InstallSnapshotArgs) (data : Bytes) : Prop :=
  if args.chunked then ∃ target, n.chunkTarget args = some target ∧ data = target.buf ++ args.data ∧
    data.length = target.totalSize
  else data = args.data

/-- What a snapshot call may do, with its answer: it is refused, which may drop the transfer in progress; or it
is of the node's own term by then, and finds the node ahead, extends the transfer, is saved, or also adopted. -/
inductive Handled (n : Node) (args : InstallSnapshotArgs) (after : Node) : Bool → Prop where
  | refused (kept : after.kept = n.kept ∨ after.kept = { n.kept with chunkTransfer := none }) :
    Handled n args after false
  | covered (term : after.currentTerm = args.term) (behind : args.lastIncludedIndex ≤ n.log.sentinel.index)
    (kept : after.kept = n.kept ∨ after.kept = { n.kept with chunkTransfer := none }) : Handled n args after true
  | extended (target : InProgressSnapshotTransfer) (term : after.currentTerm = args.term)
    (fresh : n.log.sentinel.index < args.lastIncludedIndex) (found : n.chunkTarget args = some target)
    (more : args.final = false)
    (kept : after.kept = { n.kept with chunkTransfer := some { target with buf := target.buf ++ args.data } }) :
    Handled n args after true
  | saved (data : Bytes) (term : after.currentTerm = args.term)
    (fresh : n.log.sentinel.index < args.lastIncludedIndex) (delivered : n.Delivers args data)
    (kept : after.kept =
      { n.kept with
        chunkTransfer := none
        snapshot := some ⟨args.lastIncludedIndex, args.lastIncludedTerm, data⟩ }) : Handled n args after false
  | adopted (data : Bytes) (term : after.currentTerm = args.term)
    (fresh : n.log.sentinel.index < args.lastIncludedIndex) (delivered : n.Delivers args data)
    (kept : after.kept =
      { n.kept with
        chunkTransfer := none
        snapshot := some ⟨args.lastIncludedIndex, args.lastIncludedTerm, data⟩
        snapshotData := data
        pendingSnapshot := some ⟨args.lastIncludedIndex, args.lastIncludedTerm, data⟩
        log := n.log.installSnapshotBoundary args.lastIncludedIndex args.lastIncludedTerm }) : Handled n args after true

theorem handleInstallSnapshot_handled (n : Node) (args : InstallSnapshotArgs) :
    n.Handled args (n.handleInstallSnapshot args).1 (n.handleInstallSnapshot args).2.success := by
  have path := n.handleInstallSnapshot_path args
  generalize n.handleInstallSnapshot args = result at path ⊢
  cases path with
  | refused observed =>
    have kept := n.observeTerm_kept args.term
    rw [observed] at kept
    exact .refused (Or.inl kept)
  | @covered m f transfer observed follows behind kind =>
    obtain ⟨kept, term⟩ := follow_seen observed follows
    rw [show f.log = n.log from congrArg Kept.log kept] at behind
    rcases kind with rfl | rfl
    · exact .covered term behind (Or.inr (by rw [← kept]; rfl))
    · exact .covered term behind (Or.inl kept)
  | @received m f transfer success observed follows above outcome =>
    obtain ⟨kept, term⟩ := follow_seen observed follows
    rw [show f.log = n.log from congrArg Kept.log kept] at above
    have received := f.receiveSnapshotChunk_cases args
    rw [outcome, chunkTarget_kept kept, show f.chunkTransfer = n.chunkTransfer from congrArg Kept.chunkTransfer kept,
      kept] at received
    cases success with
    | false =>
      rcases received with ⟨_, _, rfl | rfl, same⟩ | ⟨_, _, _, ⟨other, _⟩ | ⟨other, _⟩⟩
      · exact .refused (Or.inr same)
      · exact .refused (Or.inl same)
      · cases other
      · cases other
    | true =>
      rcases received with ⟨other, _⟩ | ⟨target, found, same, ⟨_, more⟩ | ⟨other, _⟩⟩
      · cases other
      · exact .extended target term above found more same
      · cases other
  | @installed m f transfer data observed follows above completes =>
    obtain ⟨kept, term⟩ := follow_seen observed follows
    rw [show f.log = n.log from congrArg Kept.log kept] at above
    have delivered : n.Delivers args data := by
      rcases completes with ⟨chunked, outcome⟩ | ⟨whole, _, rfl⟩
      · rw [Delivers, if_pos chunked]
        have received := f.receiveSnapshotChunk_cases args
        rw [outcome, chunkTarget_kept kept] at received
        rcases received with ⟨other, _⟩ | ⟨target, found, _, ⟨other, _⟩ | ⟨same, length⟩⟩
        · cases other
        · cases other
        · cases same
          exact ⟨target, found, rfl, length⟩
      · rw [Delivers, if_neg (by rw [whole]; exact Bool.false_ne_true)]
    -- Once the payload is at hand, only the saves decide what happens.
    have same : { f with chunkTransfer := transfer }.kept = { n.kept with chunkTransfer := transfer } := by
      rw [← kept]
      rfl
    obtain ⟨still, ⟨failed, moved | moved⟩ | ⟨done, moved⟩⟩ :=
      installSnapshot_cases { f with chunkTransfer := transfer } ⟨args.lastIncludedIndex, args.lastIncludedTerm, data⟩
    · rw [failed]
      exact .refused (Or.inr (by rw [moved, same]))
    · rw [failed]
      exact .saved data (still.trans term) above delivered (by rw [moved, same])
    · rw [done]
      refine .adopted data (still.trans term) above delivered ?_
      rw [moved, same, show f.log = n.log from congrArg Kept.log kept]

theorem Handled.log {n after : Node} {args : InstallSnapshotArgs} {success : Bool}
    (handled : n.Handled args after success) :
    after.log = n.log ∨ n.log.sentinel.index < args.lastIncludedIndex ∧
      after.log = n.log.installSnapshotBoundary args.lastIncludedIndex args.lastIncludedTerm := by
  cases handled with
  | refused kept | covered _ _ kept => exact Or.inl (kept.elim (congrArg Kept.log) (congrArg Kept.log))
  | extended _ _ _ _ _ kept | saved _ _ _ _ kept => exact Or.inl (congrArg Kept.log kept)
  | adopted _ _ fresh _ kept => exact Or.inr ⟨fresh, congrArg Kept.log kept⟩

end Node

def Action.external : Action → Bool
  | .createSnapshot .. => false
  | .confirmSnapshotRestored .. => false
  | .markApplied .. => false
  | .restart .. => false
  | _ => true

/-- What an execution may do to the part of a node that elections leave alone. -/
inductive Node.Alters (network : List Packet) (node : String) (n after : Node) : Action → Prop where
  | still {action : Action} (kept : after.kept = n.kept) : Alters network node n after action
  | wrote {action : Action} (rest : List LogEntry)
    (kept : after.kept = { n.kept with log := ⟨n.log.sentinel, rest⟩ }) : Alters network node n after action
  | saved {index : Nat} {data : Bytes} (term : Nat) (above : n.log.sentinel.index < index)
    (applied : index ≤ n.lastApplied) (kept : after.kept = { n.kept with snapshot := some ⟨index, term, data⟩ }) :
    Alters network node n after (.createSnapshot node index data)
  | compacted {index : Nat} {data : Bytes} (term : Nat) (above : n.log.sentinel.index < index)
    (applied : index ≤ n.lastApplied) (committed : index ≤ n.commitIndex)
    (kept : after.kept =
      { n.kept with
        snapshot := some ⟨index, term, data⟩
        snapshotData := data
        log := ⟨⟨index, term, []⟩, n.log.rest.drop (index - n.log.sentinel.index)⟩ }) :
    Alters network node n after (.createSnapshot node index data)
  | applied {action : Action} (driven : action.external = false) (index : Nat) (told : Bool) {pending : Option Snapshot}
    (waits : pending = none ∨ pending = n.pendingSnapshot)
    (kept : after.kept = { n.kept with lastApplied := index, appliedCh := told, pendingSnapshot := pending }) :
    Alters network node n after action
  | installed {action : Action} {id : Nat} {src : String} {snap : Snapshot} {args : InstallSnapshotArgs}
    {success : Bool}
    (sent : Packet.request id src (.installSnapshot node snap args) ∈ network)
    (handled : n.Handled args after success) : Alters network node n after action

theorem Node.Executes.alters {network : List Packet} {node : String} {action : Action} {n after : Node}
    (moved : Node.Executes network node action n after) : n.Alters network node after action := by
  cases moved with
  | tick => exact .still n.tick_kept
  | propose _ command =>
    rcases n.propose_kept command with same | ⟨_, same⟩
    · exact .still same
    · exact .wrote _ same
  | createSnapshot _ index data =>
    rcases n.createSnapshot_kept index data with same | ⟨term, above, applied, committed, same | same⟩
    · exact .still same
    · exact .saved term above applied same
    · exact .compacted term above applied committed same
  | confirmSnapshotRestored _ index =>
    rcases n.confirmSnapshotRestored_cases index with ⟨_, _, _, _, _, same⟩ | ⟨_, same⟩
    · exact .applied rfl _ _ (Or.inl rfl) same
    · exact .still (by rw [same])
  | markApplied _ index =>
    rcases n.markApplied_cases index with ⟨_, _, same⟩ | ⟨_, same⟩
    · exact .applied rfl index true (Or.inr rfl) (by rw [same]; rfl)
    · exact .still (by rw [same])
  | @serve _ _ id src call sent callee =>
    cases call with
    | requestVote peer args => exact .still (n.handleRequestVote_kept args)
    | appendEntries peer args =>
      obtain ⟨rest, same⟩ := n.handleAppendEntries_kept args
      exact .wrote rest same
    | installSnapshot peer snap args =>
      cases callee
      exact .installed sent (n.handleInstallSnapshot_handled args)
  | resume => exact .still (n.resume_kept _ _)
  | fault => exact .still rfl

section Carrying

variable {good : Nat → Bytes → Prop} {n : Node} {args : InstallSnapshotArgs} {peer : String} {snap : Snapshot}

/-- A transfer may take its beginning from one good payload and go on with another of the same index and size. -/
def Mixes (good : Nat → Bytes → Prop) : Prop :=
  ∀ index left right offset, good index left → good index right → left.length = right.length →
    good index (left.take offset ++ right.drop offset)

theorem Mixes.of_unique (unique : ∀ index left right, good index left → good index right → left = right) :
    Mixes good := by
  intro index left right offset known other _
  rw [unique index left right known other, List.take_append_drop]
  exact other

theorem Node.chunkTarget_carries (mixes : Mixes good) (ok : n.kept.Carries good)
    (call : Call.Carries good (.installSnapshot peer snap args)) (fresh : n.log.sentinel.index < args.lastIncludedIndex)
    {target : InProgressSnapshotTransfer} (found : n.chunkTarget args = some target) :
    ∃ whole, good args.lastIncludedIndex whole ∧ target.lastIncludedIndex = args.lastIncludedIndex ∧
      target.totalSize = whole.length ∧ target.buf ++ args.data <+: whole := by
  obtain ⟨whole, index, _, size, piece⟩ := call
  have known : good args.lastIncludedIndex snap.data := by
    rw [index]
    exact whole (by omega)
  unfold Node.chunkTarget at found
  split at found
  · rename_i first
    cases found
    rw [first, List.drop_zero] at piece
    exact ⟨snap.data, known, rfl, size, piece⟩
  split at found
  · cases found
  rename_i current inProgress
  split at found
  · cases found
  rename_i fits
  simp only [ne_eq, not_or, not_not] at fits
  obtain ⟨sameIndex, _, sameSize, sameOffset⟩ := fits
  obtain ⟨data, goodData, total, beginning⟩ := ok.transfer current inProgress
  simp only [Option.some.injEq] at found
  subst found
  rw [sameIndex] at goodData
  have lengths : data.length = snap.data.length := by
    rw [size] at sameSize
    omega
  -- What has arrived goes on with the rest of the payload this chunk belongs to.
  refine ⟨_, mixes _ data snap.data args.offset goodData known lengths, sameIndex, ?_, ?_⟩
  · rw [List.length_append, List.length_take, List.length_drop]
    omega
  · rw [← sameOffset, ← List.prefix_iff_eq_take.mp beginning]
    rw [← sameOffset] at piece
    exact List.prefix_append_right_inj _ |>.mpr piece

theorem Node.Delivers.carries (mixes : Mixes good) (ok : n.kept.Carries good)
    (call : Call.Carries good (.installSnapshot peer snap args)) (fresh : n.log.sentinel.index < args.lastIncludedIndex)
    {data : Bytes} (delivered : n.Delivers args data) : good args.lastIncludedIndex data := by
  rw [Node.Delivers, if_pos call.2.2.1] at delivered
  obtain ⟨target, found, rfl, length⟩ := delivered
  obtain ⟨whole, known, _, total, beginning⟩ := Node.chunkTarget_carries mixes ok call fresh found
  rw [beginning.eq_of_length (length.trans total)]
  exact known

theorem Node.Handled.carries (mixes : Mixes good) (ok : n.kept.Carries good)
    (call : Call.Carries good (.installSnapshot peer snap args)) {after : Node} {success : Bool}
    (handled : n.Handled args after success) : after.kept.Carries good := by
  have ignored : after.kept = n.kept ∨ after.kept = { n.kept with chunkTransfer := none } →
      after.kept.Carries good := by
    rintro (same | same) <;> rw [same]
    · exact ok
    · exact ⟨ok.boundary, ok.saved, ok.pending, fun transfer present => nomatch present⟩
  cases handled with
  | refused kept | covered _ _ kept => exact ignored kept
  | extended target _ fresh found _ same =>
    obtain ⟨whole, known, index, total, beginning⟩ := Node.chunkTarget_carries mixes ok call fresh found
    rw [same]
    refine ⟨ok.boundary, ok.saved, ok.pending, fun transfer present => ?_⟩
    cases present
    refine ⟨whole, ?_, total, beginning⟩
    dsimp only
    rw [index]
    exact known
  | saved data _ fresh delivered same =>
    rw [same]
    refine ⟨ok.boundary, fun kept present => ?_, ok.pending, fun transfer present => nomatch present⟩
    cases present
    exact delivered.carries mixes ok call fresh
  | adopted data _ fresh delivered same =>
    have known := delivered.carries mixes ok call fresh
    rw [same]
    refine ⟨fun _ => ?_, fun kept present => ?_, fun kept present => ?_, fun transfer present => nomatch present⟩
    · dsimp only
      rw [Log.installSnapshotBoundary_sentinel]
      exact known
    · cases present
      exact known
    · cases present
      exact known

theorem Node.Executes.carries {network : List Packet} {node : String} {action : Action} {after : Node}
    (mixes : Mixes good) (packets : ∀ packet ∈ network, packet.call.Carries good) (ok : n.kept.Carries good)
    (created : ∀ index data, action = .createSnapshot node index data → n.log.sentinel.index < index →
      index ≤ n.lastApplied → good index data)
    (moved : Node.Executes network node action n after) : after.kept.Carries good := by
  cases moved.alters with
  | still kept =>
    rw [kept]
    exact ok
  | wrote rest kept =>
    rw [kept]
    exact ⟨ok.boundary, ok.saved, ok.pending, ok.transfer⟩
  | saved term above applied kept =>
    rw [kept]
    refine ⟨ok.boundary, fun snap present => ?_, ok.pending, ok.transfer⟩
    cases present
    exact created _ _ rfl above applied
  | compacted term above applied _ kept =>
    have known := created _ _ rfl above applied
    rw [kept]
    refine ⟨fun _ => known, fun snap present => ?_, ok.pending, ok.transfer⟩
    cases present
    exact known
  | applied _ _ _ waits kept =>
    rw [kept]
    refine ⟨ok.boundary, ok.saved, fun snap present => ?_, ok.transfer⟩
    rcases waits with rfl | rfl
    · cases present
    · exact ok.pending snap present
  | installed sent handled => exact handled.carries mixes ok (packets _ sent)

theorem Node.sendInstallSnapshotArgs_carries (n : Node) (peer : String) (term : Nat) (offset : Nat)
    (whole : 0 < snap.lastIncludedIndex → good snap.lastIncludedIndex snap.data) :
    Call.Carries good (.installSnapshot peer snap (n.sendInstallSnapshotArgs term snap offset)) :=
  ⟨whole, rfl, rfl, rfl, List.take_prefix _ _⟩

theorem Node.Issues.carries {network : List Packet} {src : String} {call : Call}
    (packets : ∀ packet ∈ network, packet.call.Carries good) (ok : n.kept.Carries good)
    (issues : n.Issues network src call) : call.Carries good := by
  cases issues with
  | vote => trivial
  | replicate => trivial
  | offer offers =>
    obtain ⟨_, _, rfl, sender, cut⟩ := offers
    rw [cut]
    exact sender.sendInstallSnapshotArgs_carries _ _ 0 ok.boundary
  | resume sent _ continues =>
    obtain ⟨_, sender, rfl⟩ := continues
    exact sender.sendInstallSnapshotArgs_carries _ _ _ (packets _ sent).1

end Carrying

theorem newNode_kept {opts : Options} {n : Node} (started : newNode opts = .ok n) :
    ∃ suffix, n.kept =
      { id := opts.id
        peers := opts.peers
        log := Log.newLogFromEntries (opts.persister.snapshot.elim 0 Snapshot.lastIncludedIndex)
          (opts.persister.snapshot.elim 0 Snapshot.lastIncludedTerm) suffix
        lastApplied := 0
        appliedCh := false
        pendingSnapshot := opts.persister.snapshot
        snapshotData := opts.persister.snapshot.elim [] Snapshot.data
        snapshotChunkSize :=
          (if opts.snapshotChunkSize ≤ 0 then defaultSnapshotChunkSize else opts.snapshotChunkSize).toNat
        chunkTransfer := none
        snapshot := opts.persister.snapshot } := by
  unfold newNode at started
  cases loaded : loadedSuffix opts.persister.snapshot (opts.persister.state.elim [] PersistentState.log) with
  | error e =>
    simp only [loaded] at started
    cases started
  | ok suffix =>
    simp only [loaded] at started
    refine ⟨suffix, ?_⟩
    cases started
    rw [Node.resetElectionTimer_kept]
    rfl

theorem newNode_carries {opts : Options} {n : Node} (started : newNode opts = .ok n)
    (saved : ∀ snap, opts.persister.snapshot = some snap → good snap.lastIncludedIndex snap.data) :
    n.kept.Carries good := by
  obtain ⟨suffix, kept⟩ := newNode_kept started
  rw [kept]
  refine ⟨fun positive => ?_, saved, saved, fun found present => nomatch present⟩
  cases present : opts.persister.snapshot with
  | none =>
    simp only [present] at positive
    cases positive
  | some snap => exact saved snap present

namespace Cluster

structure Carries (good : Nat → Bytes → Prop) (c : Cluster) : Prop where
  nodes : ∀ node ∈ c.members, (c.nodes node).kept.Carries good
  packets : ∀ packet ∈ c.network, packet.call.Carries good

theorem Bootstrapped.applied {first : Cluster} (boot : first.Bootstrapped) {node : String}
    (known : node ∈ first.members) : (first.nodes node).lastApplied = 0 := by
  obtain ⟨opts, _, _, _, _, started⟩ := boot.fresh node known
  obtain ⟨_, kept⟩ := newNode_kept started
  exact congrArg Kept.lastApplied kept

theorem Bootstrapped.log {first : Cluster} (boot : first.Bootstrapped) {node : String} (known : node ∈ first.members) :
    (first.nodes node).persister.snapshot = none ∧ (first.nodes node).log = Log.newLogFromEntries 0 0 [] := by
  obtain ⟨opts, _, _, noState, noSnapshot, started⟩ := boot.fresh node known
  obtain ⟨suffix, loaded, core⟩ := newNode_core started
  rw [noState, noSnapshot] at core loaded
  simp only [loadedSuffix, Option.elim_none, Except.ok.injEq] at loaded core
  subst loaded
  exact ⟨congrArg Core.snapshot core, congrArg Core.log core⟩

theorem Bootstrapped.carries {good : Nat → Bytes → Prop} {first : Cluster} (boot : first.Bootstrapped) :
    Carries good first := by
  refine ⟨fun node known => ?_, fun packet sent => ?_⟩
  · obtain ⟨opts, _, _, _, none, started⟩ := boot.fresh node known
    exact newNode_carries started fun snap present => by rw [none] at present; cases present
  · rw [boot.quiet] at sent
    cases sent

theorem Carries.mono {good better : Nat → Bytes → Prop} {c : Cluster}
    (weaker : ∀ index data, good index data → better index data) (carries : Carries good c) : Carries better c where
  nodes node known := (carries.nodes node known).mono weaker
  packets packet sent := (carries.packets packet sent).mono weaker

theorem step_carries {good : Nat → Bytes → Prop} {c after : Cluster} {action : Action} {record : Record}
    (mixes : Mixes good) (described : Described record c) (carries : Carries good c)
    (created : ∀ node index data, action = .createSnapshot node index data → (c.nodes node).log.sentinel.index < index →
      index ≤ (c.nodes node).lastApplied → good index data)
    (taken : c.step action = some after) : Carries good after := by
  obtain ⟨members, nodes⟩ := step_nodes taken
  have kept : ∀ node ∈ after.members, (after.nodes node).kept.Carries good := by
    intro node known
    have ok := carries.nodes node (members ▸ known)
    rcases nodes node with still | moved | ⟨opts, rfl, started⟩
    · rw [still]
      exact ok
    · exact moved.carries mixes carries.packets ok (created node)
    · exact newNode_carries started ok.saved
  refine ⟨kept, fun packet sent => ?_⟩
  rcases (step_traffic taken).packets packet sent with
    old | ⟨id, src, call, rfl, _, _, issues⟩ | ⟨id, src, call, rfl, asked, _⟩
  · exact carries.packets packet old
  · obtain ⟨_, _, describedAfter⟩ := step_described record c after described ⟨action, taken⟩
    exact issues.carries carries.packets (kept src (RequestOk.src_known (describedAfter.packets _ sent)))
  · have carried := carries.packets _ asked
    exact carried

end Cluster

end ForgeDB.Raft
