import ForgeDB.DBNode.Acknowledged
import ForgeDB.DBNode.Contents
import ForgeDB.Raft.ReadBarrier

/-!
Consistent reads. `ConsistentGet` asks consensus for a barrier, waits until its node has applied as much and
reads the node's store.
-/

namespace ForgeDB

namespace StateMachine

-- `Get` does not touch the log, so it never returns the last one.
def StoreError.text : StoreError → String
  | emptyKey => "storage: key must not be empty"
  | keyNotFound => "storage: key not found"
  | wal => "storage: wal append"

end StateMachine

namespace DBNode

open Raft (Node LogEntry RaftError)
open StateMachine

inductive ReadError where
  | barrier (cause : RaftError)
  | wait (index : Nat) (cause : String)
  | store (cause : StoreError)
  deriving DecidableEq

def ReadError.text : ReadError → String
  | barrier cause => cause.text
  | wait index cause => s!"dbnode: wait for state machine to apply through read index {index}: {cause}"
  | store cause => cause.text

/-- `ConsistentGet` at some moment after `ReadIndex` has returned: nothing while it goes on waiting. The context is
over if it has an error. -/
def consistentGet (readIndex : Except RaftError Nat) (n : Node) (store : MemStore) (ctxErr : Option String)
    (key : Bytes) : Option (Except ReadError Bytes) :=
  match readIndex with
  | .error cause => some (.error (.barrier cause))
  | .ok index =>
    if waitApplied n index then some ((store.get key).mapError .store)
    else ctxErr.map fun cause => .error (.wait index cause)

/-- Outside a restore the contents are at least as far as what is counted as applied: an entry is counted only after
it is applied. -/
theorem Faithful.reflects_applied {record : Raft.Record} {seen : Nat → LogEntry → Prop}
    {c : Cluster (Applier KVStateMachine)} (faithful : Faithful record seen c) {node : String}
    (known : node ∈ c.raft.members) (clear : (c.raft.nodes node).pendingSnapshot = none) :
    ∃ position, (c.raft.nodes node).lastApplied ≤ position ∧
      Reflects c.raft.members record seen position (c.machines node).sm.contents := by
  have aligned := faithful.aligned node known
  have waits : ¬(c.raft.nodes node).Awaiting := by
    intro awaiting
    have pending := awaiting.pending
    rw [clear] at pending
    cases pending
  unfold Applier.Aligned at aligned
  split at aligned
  · rcases aligned with ⟨same, reflects⟩ | awaiting
    · exact ⟨_, same.ge, reflects⟩
    · exact absurd awaiting waits
  · exact absurd aligned.1 waits
  · exact absurd aligned.1 waits
  · exact ⟨_, aligned.1.ge, aligned.2⟩
  · exact ⟨_, aligned.1.ge, aligned.2.1⟩
  · exact ⟨_, aligned.1.ge, aligned.2.1⟩
  · obtain ⟨same, next, _, reflects, _⟩ := aligned
    exact ⟨_, by omega, reflects⟩

namespace Cluster

theorem RunsWhile.raft {holds : Cluster (Applier KVStateMachine) → Action → Prop}
    {c after : Cluster (Applier KVStateMachine)} (run : RunsWhile interleaved holds c after) :
    Raft.Cluster.Runs c.raft after.raft := by
  induction run with
  | refl => exact .refl
  | tail _ moved ih =>
    obtain ⟨action, _, taken⟩ := moved
    rcases step_raft taken with same | ⟨move, stepped, _⟩
    · rw [same]
      exact ih
    · exact ih.tail ⟨move, stepped⟩

/-- Wherever a member holds an entry as committed and the list has a command, it is the command of that entry. -/
def Agrees (c : Cluster (Applier KVStateMachine)) (commands : List Bytes) : Prop :=
  ∀ member ∈ c.raft.members, ∀ slot entry, slot + 1 ≤ (c.raft.nodes member).commitIndex →
    (c.raft.nodes member).log.entryAt (slot + 1) = some entry → ∀ command ∈ commands[slot]?, command = entry.command

/-- The contents are what committed commands make of an empty state machine, among them, each in its place, everything
that any member of the earlier cluster held as committed. -/
def Includes (earlier later : Cluster (Applier KVStateMachine)) (state : Contents) : Prop :=
  ∃ commands : List Bytes, Contents.replay commands = some state ∧ Agrees earlier commands ∧ Agrees later commands ∧
    ∀ member ∈ earlier.raft.members, (earlier.raft.nodes member).commitIndex ≤ commands.length

theorem agrees_of_chosen {record larger : Raft.Record} {c : Cluster (Applier KVStateMachine)}
    (described : Raft.Described record c.raft) (grown : record ≤ larger)
    (sound : Consensus.History.Sound c.raft.members larger) {commands : List Bytes}
    (agreed : ∀ slot command, commands[slot]? = some command → ∃ entry : LogEntry, entry.command = command ∧
      Consensus.History.Chosen c.raft.members larger (slot + 1) entry) : Agrees c commands := by
  intro member known slot entry committed held command found
  obtain ⟨other, rfl, chosen⟩ := agreed slot command found
  rw [sound.chosen_unique ((described.chosen known committed held).mono grown) chosen]

theorem orderly_faithful {holds : Cluster (Applier KVStateMachine) → Action → Prop}
    (orderly : ∀ c action, holds c action → OrderlyEverywhere c action) {record : Raft.Record}
    {c after : Cluster (Applier KVStateMachine)} (run : RunsWhile interleaved holds c after)
    (faithful : Faithful record (fun _ _ => True) c) :
    ∃ larger, record ≤ larger ∧ Faithful larger (fun _ _ => True) after :=
  runs_faithful (run.mono fun c action held => ⟨orderly c action held, fun _ _ _ _ _ _ => trivial⟩) faithful

def confirmed : List Action := [.raft (.dropCall 7), .raft (.deliver 9), .raft (.deliver 10)]

/-- A second node takes over that holds the committed write but has not heard of the commitment. -/
def takenOver : List Action :=
  [.raft (.tick "a"), .raft (.deliver 0), .raft (.deliver 2), .raft (.propose "a" (write 1 1)), .raft (.deliver 5),
    .raft (.deliver 7), .raft (.tick "b"), .raft (.deliver 9), .raft (.deliver 10)]

end Cluster

end DBNode

end ForgeDB
