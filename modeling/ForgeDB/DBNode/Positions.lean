import ForgeDB.DBNode.Cluster

/-!
The order in which entries reach the state machine, when everything else in the cluster may happen
between any two calls of an applier: no index is jumped over unless the node has moved away under
the applier.
-/

namespace ForgeDB.DBNode

open Raft (Node LogEntry Options)
open StateMachine

section Moving

variable {node : String} {n after : Node} {a next : Applier KVStateMachine} {action : Action}

theorem Moves.restorable (moved : Moves node n a action after next) (ok : n.kept.Restorable) :
    after.kept.Restorable := by
  cases moved with
  | undisturbed calm => exact calm.restorable ok
  | applied advances => exact advances.restorable ok
  | failing => exact ok
  | restarted opts store started => exact Raft.newNode_restorable started

theorem Moves.aligned {m : Meaning KVStateMachine} (sound : m.Sound)
    (faultless : ∀ position sm outcomes, m.reflects position sm →
      m.reflects position { sm with store := { sm.store with faults := outcomes } })
    (moved : Moves node n a action after next) (orderly : action = .apply node → a.Orderly n)
    (reopened : ∀ opts store, action = .restart node opts store → m.reflects 0 (newKVStateMachine store))
    (restorable : n.kept.Restorable)
    (pending : ∀ snap, n.pendingSnapshot = some snap → m.good snap.lastIncludedIndex snap.data)
    (committed : ∀ index entry, index ≤ n.commitIndex → n.log.entryAt index = some entry →
      entry.index = index ∧ m.agreed entry)
    (aligned : Applier.Aligned m n a) : Applier.Aligned m after next := by
  cases moved with
  | undisturbed calm => exact aligned.undisturbed calm
  | applied advances => exact advances.aligned sound (orderly rfl) restorable pending committed aligned
  | failing outcomes => exact aligned.replaced fun position => faultless position a.sm outcomes
  | restarted opts store started =>
    obtain ⟨suffix, kept⟩ := Raft.newNode_kept started
    have applied : after.lastApplied = 0 := congrArg Raft.Kept.lastApplied kept
    exact Or.inl ⟨applied.symm, reopened opts store rfl⟩

theorem Moves.handed {m : Meaning KVStateMachine} (moved : Moves node n a action after next)
    (aligned : Applier.Aligned m n a)
    (handed : ∀ entry position, (entry, position) ∈ a.handed → entry.index = position + 1) :
    ∀ entry position, (entry, position) ∈ next.handed → entry.index = position + 1 := by
  cases moved with
  | undisturbed => exact handed
  | failing => exact handed
  | restarted => exact handed
  | applied advances =>
    rcases advances.handed with same | ⟨entry, todo, phase, same⟩
    · rw [same]
      exact handed
    · intro found position present
      rw [same] at present
      rcases List.mem_cons.mp present with first | old
      · cases first
        simp only [Applier.Aligned, phase] at aligned
        exact (aligned.2.2 0 entry rfl).1
      · exact handed found position old

end Moving

namespace Cluster

variable {c after : Cluster (Applier KVStateMachine)} {action : Action} {record : Raft.Record} {node : String}

theorem step_described (described : Raft.Described record c.raft) (taken : c.step interleaved action = some after) :
    ∃ larger, record ≤ larger ∧ Raft.Described larger after.raft := by
  rcases step_raft taken with same | ⟨move, moved, _⟩
  · rw [same]
    exact ⟨record, le_refl record, described⟩
  · exact Raft.Cluster.step_described record _ _ described ⟨move, moved⟩

def OrderlyOn (node : String) (c : Cluster (Applier KVStateMachine)) (action : Action) : Prop :=
  match action with
  | .apply other => node = other → (c.machines node).Orderly (c.raft.nodes node)
  | _ => True

instance (node : String) (c : Cluster (Applier KVStateMachine)) (action : Action) :
    Decidable (OrderlyOn node c action) := by
  unfold OrderlyOn
  split <;> infer_instance

/-- Every applier takes its steps in order. -/
def Orderly (c : Cluster (Applier KVStateMachine)) : Action → Prop
  | .apply node => (c.machines node).Orderly (c.raft.nodes node)
  | _ => True

instance (c : Cluster (Applier KVStateMachine)) : (action : Action) → Decidable (Orderly c action)
  | .apply node => inferInstanceAs (Decidable ((c.machines node).Orderly (c.raft.nodes node)))
  | .raft _ | .createSnapshot .. | .storeFault .. | .restart .. => inferInstanceAs (Decidable True)

structure InOrder (node : String) (c : Cluster (Applier KVStateMachine)) : Prop where
  restorable : (c.raft.nodes node).kept.Restorable
  aligned : Applier.Aligned (Meaning.positions _) (c.raft.nodes node) (c.machines node)
  handed : ∀ entry position, (entry, position) ∈ (c.machines node).handed → entry.index = position + 1

theorem step_inOrder (described : Raft.Described record c.raft) (known : node ∈ c.raft.members)
    (orderly : OrderlyOn node c action) (taken : c.step interleaved action = some after) (ok : InOrder node c) :
    InOrder node after := by
  have moved := step_moves taken node
  refine ⟨moved.restorable ok.restorable, ?_, moved.handed ok.aligned ok.handed⟩
  refine moved.aligned (Meaning.positions_sound _) (by intros; trivial) (fun same => ?_) (by intros; trivial)
    ok.restorable (by intros; trivial) (fun index entry committed held => ⟨?_, trivial⟩) ok.aligned
  · subst same
    exact orderly rfl
  · exact described.chosen_index (described.chosen known committed held)

/-- No committed index is jumped over. Whatever happens between two calls of a node's applier: as long as a snapshot
it takes up is not older than what the node has applied, and the entries it fetches have not been compacted in
between, each entry handed to the state machine is the one after the position it has reached. -/
theorem handed_next {first c : Cluster (Applier KVStateMachine)} (boot : first.Bootstrapped interleaved)
    {node : String} (known : node ∈ first.raft.members) (run : RunsWhile interleaved (OrderlyOn node) first c) :
    ∀ entry position, (entry, position) ∈ (c.machines node).handed → entry.index = position + 1 := by
  suffices tracked : c.raft.members = first.raft.members ∧
      (∃ record, Raft.Described record c.raft) ∧ InOrder node c from tracked.2.2.handed
  induction run with
  | refl =>
    obtain ⟨faults, fresh⟩ := boot.empty node known
    refine ⟨rfl, ⟨_, boot.raft.described⟩, boot.raft.restorable known, ?_, ?_⟩
    · rw [fresh]
      exact Or.inl ⟨(boot.raft.applied known).symm, trivial⟩
    · rw [fresh]
      exact nofun
  | tail _ moved ih =>
    obtain ⟨action, orderly, taken⟩ := moved
    obtain ⟨members, ⟨record, described⟩, ok⟩ := ih
    obtain ⟨larger, _, describedAfter⟩ := step_described described taken
    have here := step_inOrder described (by rw [members]; exact known) orderly taken ok
    exact ⟨(step_members taken).trans members, ⟨larger, describedAfter⟩, here⟩

def write (requestID : UInt64) (key : UInt8) : Bytes :=
  (newPutCommand [] requestID [key] [key]).encode.toOption.getD []

/-- One node is elected, writes, applies the write and replaces it by a snapshot; then it commits a
second write with the third node. The second node has seen none of this. -/
def leftBehind : List Action :=
  [.raft (.tick "a"), .raft (.deliver 1), .raft (.deliver 2), .raft (.propose "a" (write 1 1)), .raft (.deliver 6),
    .raft (.deliver 7)] ++ List.replicate 6 (.apply "a") ++
  [.createSnapshot "a" 1, .raft (.propose "a" (write 2 2)), .raft (.deliver 9), .raft (.deliver 10)]

def catchUp : List Action := [.raft (.deliver 8), .raft (.deliver 11), .raft (.tick "a"), .raft (.deliver 12)]

def handovers (node : String) (c : Cluster (Applier KVStateMachine)) : List (Nat × Nat) :=
  (c.machines node).handed.map fun pair => (pair.1.index, pair.2)

theorem handed_next_trio :
    ∃ c, (boot interleaved ["a", "b", "c"] 0).execWhile interleaved (OrderlyOn "b")
        (leftBehind ++ catchUp ++ List.replicate 6 (.apply "b")) = some c ∧ handovers "b" c = [(2, 1)] ∧
      ∀ entry position, (entry, position) ∈ (c.machines "b").handed → entry.index = position + 1 := by
  have shape : ((boot interleaved ["a", "b", "c"] 0).execWhile interleaved (OrderlyOn "b")
      (leftBehind ++ catchUp ++ List.replicate 6 (.apply "b"))).map (handovers "b") = some [(2, 1)] := by
    decide +kernel
  obtain ⟨c, done, handed⟩ := Option.map_eq_some_iff.mp shape
  exact ⟨c, done, handed, handed_next (boot_bootstrapped interleaved 0 (by decide) (by decide)) (by decide)
    (execWhile_runs done)⟩

/-- The snapshot and the second write arrive after the applier has read what is applied and before it
fetches the entries: the second write meets a state machine that never saw the first. -/
theorem handed_skips :
    ∃ c, Runs interleaved (boot interleaved ["a", "b", "c"] 0) c ∧ handovers "b" c = [(2, 0)] := by
  have shape : ((boot interleaved ["a", "b", "c"] 0).exec interleaved
      (leftBehind ++ List.replicate 2 (.apply "b") ++ catchUp ++ List.replicate 2 (.apply "b"))).map
        (handovers "b") = some [(2, 0)] := by
    decide +kernel
  obtain ⟨c, done, handed⟩ := Option.map_eq_some_iff.mp shape
  exact ⟨c, exec_runs done, handed⟩

end Cluster

end ForgeDB.DBNode
