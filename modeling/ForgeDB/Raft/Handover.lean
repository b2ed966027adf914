import ForgeDB.Raft.Agreement
import ForgeDB.Raft.Payload

/-!
What a node hands to its state machine: committed entries in the order of the log, and snapshots in place of
what the log no longer holds. The steps of other parties never move what has been applied, and never leave a gap
before the boundary.
-/

namespace ForgeDB.Raft

open Consensus

/-- Below its boundary a node has applied everything, or it keeps a snapshot to restore. A snapshot
to restore is never newer than the boundary. -/
structure Kept.Restorable (k : Kept) : Prop where
  behind : ∀ snap, k.pendingSnapshot = some snap → snap.lastIncludedIndex ≤ k.log.sentinel.index
  reached : k.log.sentinel.index ≤ k.lastApplied ∨
    ∃ snap, k.pendingSnapshot = some snap ∧ k.log.sentinel.index ≤ snap.lastIncludedIndex

namespace Node

structure Awaiting (n : Node) : Prop where
  pending : n.pendingSnapshot.isSome
  applied : n.lastApplied ≤ n.log.sentinel.index

structure Undisturbed (n after : Node) : Prop where
  applied : after.lastApplied = n.lastApplied
  commit : n.commitIndex ≤ after.commitIndex
  boundary : n.log.sentinel.index ≤ after.log.sentinel.index
  pending : n.pendingSnapshot.isSome → after.pendingSnapshot.isSome
  restorable : n.kept.Restorable → after.kept.Restorable

theorem Undisturbed.awaiting {n after : Node} (calm : Undisturbed n after) (awaiting : n.Awaiting) : after.Awaiting :=
  ⟨calm.pending awaiting.pending, calm.applied ▸ awaiting.applied.trans calm.boundary⟩

theorem Undisturbed.of_fields {n after : Node} (applied : after.lastApplied = n.lastApplied)
    (sentinel : after.log.sentinel = n.log.sentinel) (pending : after.pendingSnapshot = n.pendingSnapshot)
    (commit : n.commitIndex ≤ after.commitIndex) : Undisturbed n after where
  applied := applied
  commit := commit
  boundary := (congrArg LogEntry.index sentinel).ge
  pending := fun waiting => (congrArg Option.isSome pending).trans waiting
  restorable := fun ok => by
    constructor
    · intro snap present
      change after.pendingSnapshot = some snap at present
      change snap.lastIncludedIndex ≤ after.log.sentinel.index
      rw [pending] at present
      rw [sentinel]
      exact ok.behind snap present
    · change after.log.sentinel.index ≤ after.lastApplied ∨
        ∃ snap, after.pendingSnapshot = some snap ∧ after.log.sentinel.index ≤ snap.lastIncludedIndex
      rw [sentinel, applied, pending]
      exact ok.reached

theorem Undisturbed.of_kept {n after : Node} (same : after.kept = n.kept) (commit : n.commitIndex ≤ after.commitIndex) :
    Undisturbed n after :=
  .of_fields (congrArg Kept.lastApplied same) (congrArg (fun k => k.log.sentinel) same)
    (congrArg Kept.pendingSnapshot same) commit

theorem Undisturbed.refl (n : Node) : Undisturbed n n := .of_kept rfl (Nat.le_refl _)

theorem Undisturbed.of_boundary {n after : Node}
    (same : ({ after.kept with chunkTransfer := n.chunkTransfer, snapshot := n.persister.snapshot } : Kept) = n.kept)
    (commit : n.commitIndex ≤ after.commitIndex) : Undisturbed n after :=
  .of_fields (congrArg Kept.lastApplied same) (congrArg (fun k => k.log.sentinel) same)
    (congrArg Kept.pendingSnapshot same) commit

theorem Handled.undisturbed {n after : Node} {args : InstallSnapshotArgs} {success : Bool}
    (handled : n.Handled args after success) (commit : n.commitIndex ≤ after.commitIndex) : Undisturbed n after := by
  cases handled with
  | refused kept | covered _ _ kept => exact .of_boundary (by rcases kept with kept | kept <;> rw [kept] <;> rfl) commit
  | extended _ _ _ _ _ kept | saved _ _ _ _ kept => exact .of_boundary (by rw [kept]; rfl) commit
  | adopted data _ fresh _ kept =>
    have boundary : after.log.sentinel = ⟨args.lastIncludedIndex, args.lastIncludedTerm, []⟩ :=
      (congrArg (fun k => k.log.sentinel) kept).trans (Log.installSnapshotBoundary_sentinel ..)
    have pending := congrArg Kept.pendingSnapshot kept
    refine ⟨congrArg Kept.lastApplied kept, commit, ?_, fun _ => congrArg Option.isSome pending, fun _ => ?_⟩
    · rw [boundary]
      exact fresh.le
    · rw [kept]
      refine ⟨fun snap same => ?_, Or.inr ⟨_, rfl, ?_⟩⟩
      · cases same
        rw [Log.installSnapshotBoundary_sentinel]
      · rw [Log.installSnapshotBoundary_sentinel]

end Node

theorem Node.Executes.undisturbed {network : List Packet} {node : String} {action : Action} {n after : Node}
    (external : action.external = true) (moved : Node.Executes network node action n after) :
    Node.Undisturbed n after := by
  have commit := moved.onward.commit
  cases moved.alters with
  | still kept => exact .of_kept kept commit
  | wrote _ kept =>
    exact .of_fields (congrArg Kept.lastApplied kept) (congrArg (fun k => k.log.sentinel) kept)
      (congrArg Kept.pendingSnapshot kept) commit
  | saved | compacted => cases external
  | applied driven => cases driven.symm.trans external
  | installed _ handled => exact handled.undisturbed commit

theorem Cluster.step_undisturbed {c after : Cluster} {action : Action} (external : action.external = true)
    (taken : c.step action = some after) (node : String) : Node.Undisturbed (c.nodes node) (after.nodes node) := by
  rcases (step_nodes taken).2 node with still | moved | ⟨opts, rfl, _⟩
  · exact .of_kept (congrArg Node.kept still) (congrArg Node.commitIndex still).ge
  · exact moved.undisturbed external
  · cases external

theorem Cluster.setNode_self (c : Cluster) (node : String) : c.setNode node (c.nodes node) = c := by
  simp only [setNode, Function.update_eq_self]

theorem Cluster.step_restart {c after : Cluster} {node : String} {opts : Options}
    (taken : c.step (.restart node opts) = some after) :
    newNode { opts with id := node, peers := (c.nodes node).peers, persister := (c.nodes node).persister } =
        .ok (after.nodes node) ∧ ∀ other, other ≠ node → after.nodes other = c.nodes other := by
  cases step_taken taken with
  | restart known started =>
    refine ⟨?_, fun other different => Function.update_of_ne different _ _⟩
    rw [started]
    simp only [setNode, Function.update_self]

theorem newNode_restorable {opts : Options} {n : Node} (started : newNode opts = .ok n) : n.kept.Restorable := by
  obtain ⟨suffix, kept⟩ := newNode_kept started
  rw [kept]
  cases present : opts.persister.snapshot with
  | none => exact ⟨(fun snap same => nomatch same), Or.inl (Nat.le_refl 0)⟩
  | some snap => exact ⟨fun _ same => by cases same; exact Nat.le_refl _, Or.inr ⟨snap, rfl, Nat.le_refl _⟩⟩

theorem Cluster.Bootstrapped.restorable {first : Cluster} (boot : first.Bootstrapped) {node : String}
    (known : node ∈ first.members) : (first.nodes node).kept.Restorable := by
  obtain ⟨opts, _, _, _, _, started⟩ := boot.fresh node known
  exact newNode_restorable started

namespace Node

theorem markApplied_restorable {n : Node} {index : Nat} (ok : n.kept.Restorable) :
    (n.markApplied index).1.kept.Restorable := by
  rcases n.markApplied_cases index with ⟨above, _, same⟩ | ⟨error, same⟩
  · rw [same]
    exact ⟨ok.behind, ok.reached.imp_left (fun le => le.trans above.le)⟩
  · rw [same]
    exact ok

theorem confirmSnapshotRestored_restorable {n : Node} {index : Nat} (ok : n.kept.Restorable) :
    (n.confirmSnapshotRestored index).1.kept.Restorable := by
  rcases n.confirmSnapshotRestored_cases index with ⟨snap, pending, rfl, _, _, same⟩ | ⟨error, same⟩
  · rw [same]
    refine ⟨(fun _ impossible => nomatch impossible), Or.inl ?_⟩
    rcases ok.reached with reached | ⟨found, present, reached⟩
    · exact reached.trans (Nat.le_max_left _ _)
    · have known : found = snap := Option.some.inj (present.symm.trans pending)
      rw [known] at reached
      exact reached.trans (Nat.le_max_right _ _)
  · rw [same]
    exact ok

theorem createSnapshot_undisturbed (n : Node) (index : Nat) (data : Bytes) :
    Undisturbed n (n.createSnapshot index data).1 := by
  have commit := (n.createSnapshot_onward index data).commit
  rcases n.createSnapshot_kept index data with same | ⟨term, above, applied, _, same | same⟩
  · exact .of_kept same commit
  · exact .of_fields (congrArg Kept.lastApplied same) (congrArg (fun k => k.log.sentinel) same)
      (congrArg Kept.pendingSnapshot same) commit
  · exact {
      applied := congrArg Kept.lastApplied same
      commit := commit
      boundary := above.le.trans (congrArg (fun k => k.log.sentinel.index) same).ge
      pending := fun pending => (congrArg (fun k => k.pendingSnapshot.isSome) same).trans pending
      restorable := fun ok => same ▸
        ⟨fun snap pending => (ok.behind snap pending).trans above.le, Or.inl applied⟩ }

theorem propose_appended {n : Node} {command : Command} {index term : Nat}
    (proposed : (n.propose command).2.1 = .ok (index, term)) :
    (n.propose command).1.role = .leader ∧ (n.propose command).1.currentTerm = term ∧
      (n.propose command).1.log.entryAt index = some ⟨index, term, command⟩ := by
  rcases n.propose_cases command with ⟨error, failed, _⟩ | ⟨leads, place, role, current, kept⟩
  · rw [failed] at proposed
    cases proposed
  rw [place, Except.ok.injEq, Prod.mk.injEq] at proposed
  obtain ⟨rfl, rfl⟩ := proposed
  have log : (n.propose command).1.log = _ := congrArg Kept.log kept
  refine ⟨role.trans leads, current, ?_⟩
  rw [log, Log.entryAt_append, if_pos rfl]

theorem committedEntries_range (n : Node) (first : Nat) {slot : Nat} {entry : LogEntry}
    (found : (n.committedEntries first)[slot]? = some entry) :
    max first (n.log.sentinel.index + 1) + slot ≤ n.commitIndex ∧
      n.log.entryAt (max first (n.log.sentinel.index + 1) + slot) = some entry := by
  have start : max (if first = 0 then 1 else first) (n.log.sentinel.index + 1) =
      max first (n.log.sentinel.index + 1) := by
    split <;> omega
  rw [← start]
  simp only [committedEntries] at found
  generalize (if first = 0 then 1 else first) = asked at found
  split at found
  · cases found
  · exact Log.range_getElem? found

theorem committedEntries_getElem? {n : Node} {first : Nat}
    (retained : n.log.sentinel.index < first ∨ n.commitIndex ≤ n.log.sentinel.index) {slot : Nat} {entry : LogEntry}
    (found : (n.committedEntries first)[slot]? = some entry) :
    first + slot ≤ n.commitIndex ∧ n.log.entryAt (first + slot) = some entry := by
  obtain ⟨below, held⟩ := n.committedEntries_range first found
  have start : max first (n.log.sentinel.index + 1) = first := by omega
  rw [start] at below held
  exact ⟨below, held⟩

theorem committedEntries_mem {n : Node} {first : Nat} {entry : LogEntry} (handed : entry ∈ n.committedEntries first) :
    ∃ index, index ≤ n.commitIndex ∧ n.log.entryAt index = some entry := by
  obtain ⟨slot, found⟩ := List.mem_iff_getElem?.mp handed
  exact ⟨_, n.committedEntries_range first found⟩

end Node

namespace Described

variable {record : Record} {c : Cluster}

theorem leader_entry (described : Described record c) {node : String} (known : node ∈ c.members)
    (leads : (c.nodes node).role = .leader) {index : Nat} {entry : LogEntry}
    (held : (c.nodes node).log.entryAt index = some entry) :
    entryAt (record.log (c.nodes node).currentTerm) index = some entry := by
  have rest := ((described.nodes node known).2.leader leads).rest
  obtain ⟨slot, rfl, present⟩ := Log.entryAt_cases held
  rw [show (c.nodes node).log.rest = _ from rest, List.getElem?_drop] at present
  exact present

theorem committed_anchored (described : Described record c) {node : String} (known : node ∈ c.members)
    {index term : Nat} (committed : index ≤ (c.nodes node).commitIndex)
    (found : (c.nodes node).log.termAt index = some term) :
    Anchored c.members record index term (c.nodes node).currentTerm := by
  have ok := (described.nodes node known).2
  rcases Log.termAt_cases found with ⟨rfl, rfl⟩ | ⟨slot, entry, rfl, present, rfl⟩
  · exact ok.anchored
  · exact ok.settled.anchored present committed

theorem chosen_index (described : Described record c) {index : Nat} {entry : LogEntry}
    (chosen : History.Chosen c.members record index entry) : entry.index = index := by
  obtain ⟨bound, term, _, _, found⟩ := chosen
  cases index with
  | zero => cases found
  | succ slot => exact described.numbered term slot entry found

end Described

end ForgeDB.Raft
