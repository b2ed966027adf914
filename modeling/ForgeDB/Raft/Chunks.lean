import ForgeDB.Raft.Snapshot

/-!
The receiver of a snapshot in chunks. What it completes is what was sent in the chunks it has taken since the
last that began anew. A chunk that it refuses ends the transfer, save for one whose declared size is over the
limit.
-/

namespace ForgeDB.Raft

/-- A node with the chunks it has accepted since the last accepted one at offset zero, that one included. -/
structure Reception where
  node : Node
  accepted : List InstallSnapshotArgs

inductive Arrival where
  | chunk (args : InstallSnapshotArgs)
  | discard

namespace Reception

def receive (r : Reception) (args : InstallSnapshotArgs) : Reception × Node.ChunkOutcome :=
  let (n, outcome) := r.node.receiveSnapshotChunk args
  match outcome with
  | .rejected => (⟨n, r.accepted⟩, outcome)
  | _ => (⟨n, if args.offset = 0 then [args] else r.accepted ++ [args]⟩, outcome)

def arrive (r : Reception) : Arrival → Reception
  | .chunk args => (r.receive args).1
  | .discard => { r with node := { r.node with chunkTransfer := none } }

def run (r : Reception) (arrivals : List Arrival) : Reception := arrivals.foldl arrive r

end Reception

/-- Chunks of one snapshot, the first at offset zero and each at the offset where the one before it ended, with the
data they make up. -/
structure Assembled (chunks : List InstallSnapshotArgs) (lastIncludedIndex lastIncludedTerm totalSize : Nat)
    (data : List UInt8) : Prop where
  joined : data = chunks.flatMap InstallSnapshotArgs.data
  first : chunks.head?.map InstallSnapshotArgs.offset = some 0
  index : ∀ args ∈ chunks, args.lastIncludedIndex = lastIncludedIndex
  term : ∀ args ∈ chunks, args.lastIncludedTerm = lastIncludedTerm
  total : ∀ args ∈ chunks, args.totalSize = totalSize
  placed : ∀ i args, chunks[i]? = some args →
    args.offset = ((chunks.take i).flatMap InstallSnapshotArgs.data).length

theorem Assembled.start {args : InstallSnapshotArgs} (start : args.offset = 0) :
    Assembled [args] args.lastIncludedIndex args.lastIncludedTerm args.totalSize args.data := by
  refine ⟨(List.flatMap_singleton ..).symm, congrArg some start, ?_, ?_, ?_, ?_⟩
  · exact List.forall_mem_singleton.mpr rfl
  · exact List.forall_mem_singleton.mpr rfl
  · exact List.forall_mem_singleton.mpr rfl
  · intro i other found
    match i with
    | 0 =>
      cases found
      exact start
    | i + 1 => cases found

theorem Assembled.extend {chunks : List InstallSnapshotArgs} {args : InstallSnapshotArgs} {data : List UInt8}
    (assembled : Assembled chunks args.lastIncludedIndex args.lastIncludedTerm args.totalSize data)
    (next : args.offset = data.length) :
    Assembled (chunks ++ [args]) args.lastIncludedIndex args.lastIncludedTerm args.totalSize (data ++ args.data) := by
  have last : ∀ {p : InstallSnapshotArgs → Prop}, (∀ other ∈ chunks, p other) → p args →
      ∀ other ∈ chunks ++ [args], p other := fun old new =>
    List.forall_mem_append.mpr ⟨old, List.forall_mem_singleton.mpr new⟩
  refine ⟨?_, ?_, last assembled.index rfl, last assembled.term rfl, last assembled.total rfl, ?_⟩
  · rw [List.flatMap_append, List.flatMap_singleton, ← assembled.joined]
  · obtain ⟨begin, head, -⟩ := Option.map_eq_some_iff.mp assembled.first
    rw [List.head?_append, head, Option.some_or, ← head]
    exact assembled.first
  · intro i other found
    rw [List.getElem?_append] at found
    split at found
    · rename_i inside
      rw [List.take_append_of_le_length inside.le]
      exact assembled.placed i other found
    · rename_i beyond
      obtain ⟨inside, same⟩ := List.getElem?_eq_some_iff.mp found
      have atEnd : i = chunks.length := by
        rw [List.length_singleton] at inside
        omega
      have only : other = args := by
        simpa only [atEnd, Nat.sub_self, List.getElem_singleton] using same.symm
      rw [only, atEnd, List.take_left, next, ← assembled.joined]

namespace Reception

def Sound (r : Reception) : Prop :=
  ∀ transfer, r.node.chunkTransfer = some transfer →
    Assembled r.accepted transfer.lastIncludedIndex transfer.lastIncludedTerm transfer.totalSize transfer.buf

theorem Sound.target {r : Reception} (sound : r.Sound) {args : InstallSnapshotArgs}
    {transfer : InProgressSnapshotTransfer} (found : r.node.chunkTarget args = some transfer) :
    transfer.lastIncludedIndex = args.lastIncludedIndex ∧ transfer.lastIncludedTerm = args.lastIncludedTerm ∧
      transfer.totalSize = args.totalSize ∧
      Assembled (if args.offset = 0 then [args] else r.accepted ++ [args]) args.lastIncludedIndex args.lastIncludedTerm
        args.totalSize (transfer.buf ++ args.data) := by
  unfold Node.chunkTarget at found
  by_cases start : args.offset = 0
  · rw [if_pos start] at found
    cases found
    rw [if_pos start]
    exact ⟨rfl, rfl, rfl, Assembled.start start⟩
  · rw [if_neg start] at found
    rw [if_neg start]
    cases held : r.node.chunkTransfer with
    | none =>
      rw [held] at found
      cases found
    | some current =>
      rw [held] at found
      dsimp only at found
      split at found
      · cases found
      · rename_i fits
        simp only [not_or, not_not] at fits
        obtain ⟨index, term, total, next⟩ := fits
        cases found
        have assembled := sound transfer held
        rw [index, term, total] at assembled
        exact ⟨index, term, total, assembled.extend next.symm⟩

theorem Sound.receive {r : Reception} (sound : r.Sound) (args : InstallSnapshotArgs) : (r.receive args).1.Sound := by
  unfold Reception.receive
  have path := r.node.receiveSnapshotChunk_path args
  generalize r.node.receiveSnapshotChunk args = result at path
  cases path with
  | oversized large => exact sound
  | discarded fits =>
    intro transfer held
    cases held
  | taken fits target open_ | completed fits target last whole =>
    obtain ⟨index, term, total, assembled⟩ := sound.target target
    intro transfer held
    cases held
    dsimp only
    rw [index, term, total]
    exact assembled

theorem Sound.run {r : Reception} (sound : r.Sound) (arrivals : List Arrival) : (r.run arrivals).Sound := by
  induction arrivals generalizing r with
  | nil => exact sound
  | cons arrival arrivals ih =>
    refine ih ?_
    cases arrival with
    | chunk args => exact sound.receive args
    | discard =>
      intro transfer held
      cases held

theorem exists_accepted (n : Node) : ∃ accepted, Sound ⟨n, accepted⟩ := by
  cases held : n.chunkTransfer with
  | none =>
    refine ⟨[], fun transfer other => ?_⟩
    rw [held] at other
    cases other
  | some transfer =>
    let only : InstallSnapshotArgs :=
      ⟨0, "", transfer.lastIncludedIndex, transfer.lastIncludedTerm, transfer.buf, true, 0, false,
        transfer.totalSize, 0⟩
    refine ⟨[only], fun same other => ?_⟩
    rw [held] at other
    cases other
    exact Assembled.start (rfl : only.offset = 0)

theorem Sound.complete {r : Reception} (sound : r.Sound) {args : InstallSnapshotArgs} {data : List UInt8}
    (completes : (r.receive args).2 = .complete data) :
    Assembled (r.receive args).1.accepted args.lastIncludedIndex args.lastIncludedTerm args.totalSize data ∧
      data.length = args.totalSize := by
  unfold Reception.receive at completes ⊢
  have path := r.node.receiveSnapshotChunk_path args
  generalize r.node.receiveSnapshotChunk args = result at path completes ⊢
  cases path with
  | completed fits target last whole =>
    obtain ⟨-, -, total, assembled⟩ := sound.target target
    cases completes
    exact ⟨assembled, whole.trans total⟩
  | oversized | discarded | taken => cases completes

end Reception

/-- A refused chunk leaves no transfer behind exactly if its declared size is within the limit or there was none
before. In whatever state the receiver has come to by accepting chunks, the data that a chunk completes is that of the
chunks accepted since the last accepted one at offset zero: of the same snapshot and size, each at the offset where
the one before it ended, and together of the declared size. -/
theorem chunk_receiver_fails_closed_iff (n : Node) (args : InstallSnapshotArgs) :
    (((n.receiveSnapshotChunk args).2 = .rejected → (n.receiveSnapshotChunk args).1.chunkTransfer = none) ↔
      args.totalSize ≤ maxSnapshotDataSize ∨ n.chunkTransfer = none) ∧
    (∃ accepted, Reception.Sound ⟨n, accepted⟩) ∧
    ∀ (accepted : List InstallSnapshotArgs) (arrivals : List Arrival) (data : List UInt8),
      Reception.Sound ⟨n, accepted⟩ →
      let before := Reception.run ⟨n, accepted⟩ arrivals
      (before.receive args).2 = .complete data →
        Assembled (before.receive args).1.accepted args.lastIncludedIndex args.lastIncludedTerm args.totalSize data ∧
          data.length = args.totalSize := by
  constructor
  · have path := n.receiveSnapshotChunk_path args
    generalize n.receiveSnapshotChunk args = result at path
    cases path with
    | oversized large => simp only [Nat.not_le.mpr large, false_or, forall_const]
    | discarded fits => exact iff_of_true (fun _ => rfl) (Or.inl fits)
    | taken fits target open_ | completed fits target last whole =>
      exact iff_of_true (fun other => nomatch other) (Or.inl fits)
  · refine ⟨Reception.exists_accepted n, ?_⟩
    intro accepted arrivals data start before completes
    exact (start.run arrivals).complete completes

/-- A chunk that declares one byte too many is refused, and the transfer before it is still in progress. -/
theorem oversized_chunk_keeps_transfer :
    let first : InstallSnapshotArgs := ⟨1, "n1", 5, 1, [7], true, 0, false, 2, checksum [7]⟩
    let n : Node := { (default : Node) with chunkTransfer := none }
    let m := (n.receiveSnapshotChunk first).1
    let large : InstallSnapshotArgs := { first with totalSize := maxSnapshotDataSize + 1 }
    (m.receiveSnapshotChunk large).2 = .rejected ∧
      (m.receiveSnapshotChunk large).1.chunkTransfer = some ⟨5, 1, 2, [7]⟩ := by
  decide

end ForgeDB.Raft
