import Mathlib.Logic.Relation
import ForgeDB.Raft.Snapshot
import ForgeDB.StateMachine.Snapshot

/-!
The applier of a node: it restores the snapshot the node wants restored and then applies the committed entries
one by one. One version runs as a whole, one stops between any two calls on the node, and the first is a run of
the second that nothing interrupts.
-/

namespace ForgeDB.StateMachine

open Raft (Node LogEntry RaftError)

structure Snapshotter (σ : Type) where
  createSnapshot : σ → Except SnapshotError Bytes
  restoreSnapshot : σ → Bytes → σ × Except SnapshotError Unit

set_option linter.dupNamespace false in
/-- What an applier needs of a state machine. Not every one is a snapshotter. -/
class StateMachine (σ : Type) where
  apply : σ → Command → σ × Except ApplyError Result
  snapshotter : Option (Snapshotter σ)

instance : StateMachine KVStateMachine where
  apply := KVStateMachine.apply
  snapshotter := some ⟨KVStateMachine.createSnapshot, KVStateMachine.restoreSnapshot⟩

inductive ApplierError where
  | notSnapshotter (index : Nat)
  | restore (index : Nat) (cause : SnapshotError)
  | confirm (index : Nat) (cause : RaftError)
  | decode (index : Nat) (cause : CommandError)
  | apply (index : Nat) (cause : ApplyError)
  | mark (index : Nat) (cause : RaftError)
  | cannotCreate
  | notLastApplied (index lastApplied : Nat)
  | create (cause : SnapshotError)
  | persist (cause : RaftError)
  deriving DecidableEq

def ApplyError.text : ApplyError → String
  | put => "statemachine: put"
  | delete => "statemachine: delete"
  | unknownOp op => s!"statemachine: unknown op {op.string}: statemachine: invalid command"

def ApplierError.text : ApplierError → String
  | notSnapshotter index =>
    s!"statemachine: a snapshot through index {index} is pending but this state machine does not implement Snapshotter"
  | restore index cause => s!"statemachine: restore snapshot through index {index}: {cause.text}"
  | confirm index cause => s!"statemachine: confirm snapshot restored through index {index}: {cause.text}"
  | decode index cause => s!"statemachine: decode committed entry at index {index}: {cause.text}"
  | apply index cause => s!"statemachine: apply committed entry at index {index}: {cause.text}"
  | mark index cause => s!"statemachine: mark entry at index {index} applied: {cause.text}"
  | cannotCreate => "statemachine: CreateSnapshot: state machine does not implement Snapshotter"
  | notLastApplied index lastApplied =>
    s!"statemachine: CreateSnapshot({index}): must exactly equal the current LastApplied ({lastApplied})" ++
      " -- a snapshot can only capture the state machine's exact current state"
  | create cause => s!"statemachine: create snapshot: {cause.text}"
  | persist cause => s!"statemachine: persist snapshot: {cause.text}"

section Atomic

variable {σ : Type} [StateMachine σ]

def restorePendingSnapshotLocked (n : Node) (sm : σ) : Node × σ × Option ApplierError :=
  match n.pendingSnapshot with
  | none => (n, sm, none)
  | some snap =>
    match (StateMachine.snapshotter : Option (Snapshotter σ)) with
    | none => (n, sm, some (.notSnapshotter snap.lastIncludedIndex))
    | some restorer =>
      match restorer.restoreSnapshot sm snap.data with
      | (sm, .error cause) => (n, sm, some (.restore snap.lastIncludedIndex cause))
      | (sm, .ok _) =>
        match n.confirmSnapshotRestored snap.lastIncludedIndex with
        | (n, .error cause) => (n, sm, some (.confirm snap.lastIncludedIndex cause))
        | (n, .ok _) => (n, sm, none)

def applyEntries (n : Node) (sm : σ) (applied : Nat) : List LogEntry → Node × σ × Nat × Option ApplierError
  | [] => (n, sm, applied, none)
  | entry :: todo =>
    match decodeCommand entry.command with
    | .error cause => (n, sm, applied, some (.decode entry.index cause))
    | .ok cmd =>
      match StateMachine.apply sm cmd with
      | (sm, .error cause) => (n, sm, applied, some (.apply entry.index cause))
      | (sm, .ok _) =>
        match n.markApplied entry.index with
        | (n, .error cause) => (n, sm, applied, some (.mark entry.index cause))
        | (n, .ok _) => applyEntries n sm (applied + 1) todo

def applyAvailable (n : Node) (sm : σ) : Node × σ × Nat × Option ApplierError :=
  match restorePendingSnapshotLocked n sm with
  | (n, sm, some error) => (n, sm, 0, some error)
  | (n, sm, none) => applyEntries n sm 0 (n.committedEntries (n.lastApplied + 1))

def createSnapshot (n : Node) (sm : σ) (index : Nat) : Node × Option ApplierError :=
  match (StateMachine.snapshotter : Option (Snapshotter σ)) with
  | none => (n, some .cannotCreate)
  | some creator =>
    if index ≠ n.lastApplied then (n, some (.notLastApplied index n.lastApplied))
    else
      match creator.createSnapshot sm with
      | .error cause => (n, some (.create cause))
      | .ok data =>
        match n.createSnapshot index data with
        | (n, .error cause) => (n, some (.persist cause))
        | (n, .ok _) => (n, none)

theorem createSnapshot_cases (n : Node) (sm : σ) (index : Nat) :
    (createSnapshot n sm index).1 = n ∨ ∃ (creator : Snapshotter σ) (data : Bytes),
      StateMachine.snapshotter = some creator ∧ index = n.lastApplied ∧ creator.createSnapshot sm = .ok data ∧
        (createSnapshot n sm index).1 = (n.createSnapshot index data).1 := by
  unfold createSnapshot
  cases supports : (StateMachine.snapshotter : Option (Snapshotter σ)) with
  | none => exact Or.inl rfl
  | some creator =>
    dsimp only
    split
    · exact Or.inl rfl
    rename_i current
    cases created : creator.createSnapshot sm with
    | error cause => exact Or.inl rfl
    | ok data =>
      refine Or.inr ⟨creator, data, rfl, not_not.mp current, created, ?_⟩
      dsimp only
      rcases n.createSnapshot index data with ⟨after, cause | _⟩ <;> rfl

end Atomic

/-- Which call a running `applyAvailable` makes next, with what it has learnt from the ones before. -/
inductive Phase where
  | idle
  | restore (snap : Raft.Snapshot)
  | confirm (index : Nat)
  | lastApplied
  | committed (first : Nat)
  | entries (todo : List LogEntry)
  | mark (index : Nat) (todo : List LogEntry)
  deriving DecidableEq

/-- The results `applied` and `err` are those of the call in progress or the last one. Three fields are kept for
reasoning only: `position` is the index applied or restored last, `handed` lists the entries given to the state
machine, latest first, each with the position it met, and `restored` the snapshots restored. -/
structure Applier (σ : Type) where
  sm : σ
  phase : Phase
  applied : Nat
  err : Option ApplierError
  position : Nat
  handed : List (LogEntry × Nat)
  restored : List Raft.Snapshot

def newApplier {σ : Type} (sm : σ) : Applier σ := ⟨sm, .idle, 0, none, 0, [], []⟩

namespace Applier

variable {σ : Type} [StateMachine σ]

def stop (a : Applier σ) (err : Option ApplierError) : Applier σ := { a with phase := .idle, err := err }

def start (n : Node) (a : Applier σ) : Applier σ :=
  let a := { a with applied := 0, err := none }
  match n.pendingSnapshot with
  | none => { a with phase := .lastApplied }
  | some snap => { a with phase := .restore snap }

def restore (a : Applier σ) (snap : Raft.Snapshot) : Applier σ :=
  match (StateMachine.snapshotter : Option (Snapshotter σ)) with
  | none => a.stop (some (.notSnapshotter snap.lastIncludedIndex))
  | some restorer =>
    match restorer.restoreSnapshot a.sm snap.data with
    | (sm, .error cause) => { a with sm := sm }.stop (some (.restore snap.lastIncludedIndex cause))
    | (sm, .ok _) =>
      { a with
        sm := sm
        position := snap.lastIncludedIndex
        restored := snap :: a.restored
        phase := .confirm snap.lastIncludedIndex }

def confirm (n : Node) (a : Applier σ) (index : Nat) : Node × Applier σ :=
  match n.confirmSnapshotRestored index with
  | (n, .error cause) => (n, a.stop (some (.confirm index cause)))
  | (n, .ok _) => (n, { a with phase := .lastApplied })

def hand (a : Applier σ) (entry : LogEntry) (todo : List LogEntry) : Applier σ :=
  match decodeCommand entry.command with
  | .error cause => a.stop (some (.decode entry.index cause))
  | .ok cmd =>
    let a := { a with handed := (entry, a.position) :: a.handed }
    match StateMachine.apply a.sm cmd with
    | (sm, .error cause) => { a with sm := sm }.stop (some (.apply entry.index cause))
    | (sm, .ok _) => { a with sm := sm, position := entry.index, phase := .mark entry.index todo }

def mark (n : Node) (a : Applier σ) (index : Nat) (todo : List LogEntry) : Node × Applier σ :=
  match n.markApplied index with
  | (n, .error cause) => (n, a.stop (some (.mark index cause)))
  | (n, .ok _) => (n, { a with applied := a.applied + 1, phase := .entries todo })

def step (n : Node) (a : Applier σ) : Node × Applier σ :=
  match a.phase with
  | .idle => (n, a.start n)
  | .restore snap => (n, a.restore snap)
  | .confirm index => a.confirm n index
  | .lastApplied => (n, { a with phase := .committed (n.lastApplied + 1) })
  | .committed first => (n, { a with phase := .entries (n.committedEntries first) })
  | .entries [] => (n, a.stop none)
  | .entries (entry :: todo) => (n, a.hand entry todo)
  | .mark index todo => a.mark n index todo

def Continues (before after : Node × Applier σ) : Prop :=
  before.2.phase ≠ .idle ∧ before.2.step before.1 = after

def Ends (outcome : Node × σ × Nat × Option ApplierError) (n : Node) (a : Applier σ) : Prop :=
  ∃ b, Relation.ReflTransGen Continues (n, a) (outcome.1, b) ∧ b.phase = .idle ∧
    (b.sm, b.applied, b.err) = outcome.2

theorem Ends.stop {n : Node} {a : Applier σ} (phase : a.phase = .idle) :
    Ends (n, a.sm, a.applied, a.err) n a :=
  ⟨a, .refl, phase, rfl⟩

theorem Ends.head {outcome : Node × σ × Nat × Option ApplierError} {n m : Node} {a b : Applier σ}
    (busy : a.phase ≠ .idle) (taken : a.step n = (m, b)) (rest : Ends outcome m b) : Ends outcome n a := by
  obtain ⟨last, run, done⟩ := rest
  exact ⟨last, .head ⟨busy, taken⟩ run, done⟩

theorem applyEntries_ends (todo : List LogEntry) (n : Node) (a : Applier σ) (phase : a.phase = .entries todo)
    (clean : a.err = none) : Ends (applyEntries n a.sm a.applied todo) n a := by
  induction todo generalizing n a with
  | nil =>
    refine Ends.head (by rw [phase]; exact nofun) (by simp only [step, phase]; rfl) ?_
    exact .stop rfl
  | cons entry todo ih =>
    have busy : a.phase ≠ .idle := by rw [phase]; exact nofun
    have handed : a.step n = (n, a.hand entry todo) := by simp only [step, phase]
    refine Ends.head busy handed ?_
    rw [applyEntries]
    unfold hand
    cases decoded : decodeCommand entry.command with
    | error cause => exact .stop rfl
    | ok cmd =>
      dsimp only
      rcases ran : StateMachine.apply a.sm cmd with ⟨sm, cause | result⟩
      · exact .stop rfl
      · dsimp only
        refine Ends.head nofun (show step n _ = mark n _ entry.index todo from rfl) ?_
        rcases n.markApplied entry.index with ⟨m, cause | _⟩
        · exact .stop rfl
        · exact ih m _ rfl clean

theorem committed_ends {n : Node} {a : Applier σ} (phase : a.phase = .lastApplied) (clean : a.err = none) :
    Ends (applyEntries n a.sm a.applied (n.committedEntries (n.lastApplied + 1))) n a := by
  refine Ends.head (by rw [phase]; exact nofun) (by simp only [step, phase]; rfl) ?_
  refine Ends.head nofun (show step n _ = (n, _) from rfl) ?_
  exact applyEntries_ends _ n _ rfl clean

theorem applyAvailable_ends (n : Node) (a : Applier σ) : Ends (applyAvailable n a.sm) n (a.start n) := by
  unfold applyAvailable restorePendingSnapshotLocked start
  cases n.pendingSnapshot with
  | none => exact committed_ends rfl rfl
  | some snap =>
    refine Ends.head nofun (show step n _ = (n, restore _ snap) from rfl) ?_
    unfold restore
    cases (StateMachine.snapshotter : Option (Snapshotter σ)) with
    | none => exact .stop rfl
    | some restorer =>
      dsimp only
      rcases restorer.restoreSnapshot a.sm snap.data with ⟨sm, cause | _⟩
      · exact .stop rfl
      · dsimp only
        refine Ends.head nofun (show step n _ = confirm n _ snap.lastIncludedIndex from rfl) ?_
        rcases n.confirmSnapshotRestored snap.lastIncludedIndex with ⟨m, cause | _⟩
        · exact .stop rfl
        · exact committed_ends rfl rfl

end Applier

end ForgeDB.StateMachine
