import ForgeDB.StateMachine.Alignment

/-!
A cluster of database nodes: consensus, and on every node an applier with its key/value state machine. In the
coarse grain `applyAvailable` is one step; in the fine one each of its calls is. Whatever the coarse cluster
does, the fine one can do.
-/

namespace ForgeDB.DBNode

open Raft (Node LogEntry Options)
open StateMachine

structure Cluster (α : Type) where
  raft : Raft.Cluster
  machines : String → α

/-- `apply` is the next step of a node's applier. A restart finds in the data directory whatever
`store` the crash left there. -/
inductive Action where
  | raft (action : Raft.Action)
  | apply (node : String)
  | createSnapshot (node : String) (index : Nat)
  | storeFault (node : String) (outcomes : List Bool)
  | restart (node : String) (opts : Options) (store : MemStore)

def Action.restarts : Action → Bool
  | .restart .. => true
  | _ => false

def Action.leftover : Action → Option MemStore
  | .restart _ _ store => some store
  | _ => none

/-- How a node drives its applier. Only one call of the applier runs at a time, so a snapshot is
created only between two runs of `applyAvailable`. -/
structure Driver (α : Type) where
  fresh : KVStateMachine → α
  advance : Node → α → Node × α
  createSnapshot : Node → α → Nat → Option Node
  update : (KVStateMachine → KVStateMachine) → α → α
  reopen : α → KVStateMachine → α

def atomic : Driver KVStateMachine where
  fresh sm := sm
  advance n sm :=
    let (n, sm, _, _) := applyAvailable n sm
    (n, sm)
  createSnapshot n sm index := some (createSnapshot n sm index).1
  update change sm := change sm
  reopen _ sm := sm

/-- Between the calls of `createSnapshot` nothing it reads can change, so it stays one step. -/
def interleaved : Driver (Applier KVStateMachine) where
  fresh sm := newApplier sm
  advance n a := a.step n
  createSnapshot n a index := if a.phase = .idle then some (createSnapshot n a.sm index).1 else none
  update change a := { a with sm := change a.sm }
  reopen a sm := { newApplier sm with handed := a.handed, restored := a.restored }

namespace Cluster

variable {α : Type}

def step (d : Driver α) (c : Cluster α) : Action → Option (Cluster α)
  | .raft action =>
    if action.external then (c.raft.step action).map fun raft => { c with raft := raft } else none
  | .apply node =>
    if node ∈ c.raft.members then
      let (n, machine) := d.advance (c.raft.nodes node) (c.machines node)
      some ⟨c.raft.setNode node n, Function.update c.machines node machine⟩
    else none
  | .createSnapshot node index =>
    if node ∈ c.raft.members then
      (d.createSnapshot (c.raft.nodes node) (c.machines node) index).map fun n =>
        { c with raft := c.raft.setNode node n }
    else none
  | .storeFault node outcomes =>
    let failing (sm : KVStateMachine) := { sm with store := { sm.store with faults := outcomes } }
    some { c with machines := Function.update c.machines node (d.update failing (c.machines node)) }
  | .restart node opts store =>
    (c.raft.step (.restart node opts)).map fun raft =>
      ⟨raft, Function.update c.machines node (d.reopen (c.machines node) (newKVStateMachine store))⟩

inductive Taken (d : Driver α) (c : Cluster α) : Action → Cluster α → Prop
  | raft {move : Raft.Action} {raft : Raft.Cluster} (external : move.external = true)
    (moved : c.raft.step move = some raft) : c.Taken d (.raft move) { c with raft := raft }
  | apply {node : String} (known : node ∈ c.raft.members) :
    c.Taken d (.apply node) ⟨c.raft.setNode node (d.advance (c.raft.nodes node) (c.machines node)).1,
      Function.update c.machines node (d.advance (c.raft.nodes node) (c.machines node)).2⟩
  | createSnapshot {node : String} {index : Nat} {n : Node} (known : node ∈ c.raft.members)
    (created : d.createSnapshot (c.raft.nodes node) (c.machines node) index = some n) :
    c.Taken d (.createSnapshot node index) { c with raft := c.raft.setNode node n }
  | storeFault {node : String} {outcomes : List Bool} :
    c.Taken d (.storeFault node outcomes) ⟨c.raft, Function.update c.machines node
      (d.update (fun sm => { sm with store := { sm.store with faults := outcomes } }) (c.machines node))⟩
  | restart {node : String} {opts : Options} {store : MemStore} {raft : Raft.Cluster}
    (moved : c.raft.step (.restart node opts) = some raft) :
    c.Taken d (.restart node opts store)
      ⟨raft, Function.update c.machines node (d.reopen (c.machines node) (newKVStateMachine store))⟩

theorem step_taken {d : Driver α} {c after : Cluster α} {action : Action} (taken : c.step d action = some after) :
    c.Taken d action after := by
  cases action with
  | raft move =>
    simp only [step] at taken
    split at taken
    · rename_i external
      obtain ⟨raft, moved, rfl⟩ := Option.map_eq_some_iff.mp taken
      exact .raft external moved
    · cases taken
  | apply node =>
    simp only [step] at taken
    split at taken <;> cases taken
    rename_i known
    exact .apply known
  | createSnapshot node index =>
    simp only [step] at taken
    split at taken
    · rename_i known
      obtain ⟨n, created, rfl⟩ := Option.map_eq_some_iff.mp taken
      exact .createSnapshot known created
    · cases taken
  | storeFault node outcomes =>
    cases taken
    exact .storeFault
  | restart node opts store =>
    obtain ⟨raft, moved, rfl⟩ := Option.map_eq_some_iff.mp taken
    exact .restart moved

structure Bootstrapped (d : Driver α) (c : Cluster α) : Prop where
  raft : c.raft.Bootstrapped
  empty : ∀ node ∈ c.raft.members, ∃ faults, c.machines node = d.fresh (newKVStateMachine ⟨SortedMap.empty, faults⟩)

def boot (d : Driver α) (members : List String) (chunkSize : Int) : Cluster α where
  raft := Raft.Cluster.boot members chunkSize
  machines _ := d.fresh (newKVStateMachine ⟨SortedMap.empty, []⟩)

theorem boot_bootstrapped (d : Driver α) {members : List String} (chunkSize : Int) (distinct : members.Nodup)
    (named : "" ∉ members) : (boot d members chunkSize).Bootstrapped d :=
  ⟨Raft.Cluster.boot_bootstrapped chunkSize distinct named, fun _ _ => ⟨[], rfl⟩⟩

def RunsWhile (d : Driver α) (holds : Cluster α → Action → Prop) : Cluster α → Cluster α → Prop :=
  Relation.ReflTransGen fun before after => ∃ action, holds before action ∧ before.step d action = some after

def Runs (d : Driver α) : Cluster α → Cluster α → Prop := RunsWhile d fun _ _ => True

theorem RunsWhile.mono {d : Driver α} {holds allows : Cluster α → Action → Prop} {c after : Cluster α}
    (weaker : ∀ c action, holds c action → allows c action) (run : RunsWhile d holds c after) :
    RunsWhile d allows c after := by
  induction run with
  | refl => exact .refl
  | tail _ moved ih =>
    obtain ⟨action, held, taken⟩ := moved
    exact ih.tail ⟨action, weaker _ action held, taken⟩

theorem step_members {d : Driver α} {c after : Cluster α} {action : Action} (taken : c.step d action = some after) :
    after.raft.members = c.raft.members := by
  cases step_taken taken with
  | raft external moved | restart moved => exact (Raft.Cluster.step_nodes moved).1
  | _ => rfl

theorem RunsWhile.members {d : Driver α} {holds : Cluster α → Action → Prop} {first c : Cluster α}
    (run : RunsWhile d holds first c) : c.raft.members = first.raft.members := by
  induction run with
  | refl => rfl
  | tail _ moved ih =>
    obtain ⟨action, _, taken⟩ := moved
    exact (step_members taken).trans ih

def execWhile (d : Driver α) (holds : Cluster α → Action → Prop) [∀ c action, Decidable (holds c action)]
    (c : Cluster α) : List Action → Option (Cluster α)
  | [] => some c
  | action :: actions =>
    if holds c action then (c.step d action).bind fun next => next.execWhile d holds actions else none

theorem execWhile_runs {d : Driver α} {holds : Cluster α → Action → Prop} [∀ c action, Decidable (holds c action)]
    {actions : List Action} {c after : Cluster α} (done : c.execWhile d holds actions = some after) :
    RunsWhile d holds c after := by
  induction actions generalizing c with
  | nil =>
    cases done
    exact .refl
  | cons action actions ih =>
    unfold execWhile at done
    split at done
    · rename_i tested
      obtain ⟨next, taken, rest⟩ := Option.bind_eq_some_iff.mp done
      exact .head ⟨action, tested, taken⟩ (ih rest)
    · cases done

def exec (d : Driver α) (c : Cluster α) (actions : List Action) : Option (Cluster α) :=
  c.execWhile d (fun _ _ => True) actions

theorem exec_runs {d : Driver α} {actions : List Action} {c after : Cluster α} (done : c.exec d actions = some after) :
    Runs d c after :=
  execWhile_runs done

end Cluster

inductive Moves (node : String) (n : Node) (a : Applier KVStateMachine) :
    Action → Node → Applier KVStateMachine → Prop where
  | undisturbed {action : Action} {after : Node} (calm : Node.Undisturbed n after) : Moves node n a action after a
  | applied {after : Node} {next : Applier KVStateMachine} (advances : Applier.Advances n a after next) :
    Moves node n a (.apply node) after next
  | failing (outcomes : List Bool) :
    Moves node n a (.storeFault node outcomes) n
      { a with sm := { a.sm with store := { a.sm.store with faults := outcomes } } }
  | restarted (opts : Options) (store : MemStore) {after : Node}
    (started : Raft.newNode { opts with id := node, peers := n.peers, persister := n.persister } = .ok after) :
    Moves node n a (.restart node opts store) after
      { newApplier (newKVStateMachine store) with handed := a.handed, restored := a.restored }

namespace Cluster

variable {c after : Cluster (Applier KVStateMachine)} {action : Action}

theorem step_raft (taken : c.step interleaved action = some after) :
    after.raft = c.raft ∨ ∃ move, c.raft.step move = some after.raft ∧
      ∀ node index data, move = .createSnapshot node index data →
        node ∈ c.raft.members ∧ (c.machines node).phase = .idle ∧ index = (c.raft.nodes node).lastApplied ∧
          (c.machines node).sm.createSnapshot = .ok data := by
  cases step_taken taken with
  | raft external moved =>
    refine Or.inr ⟨_, moved, fun node index data same => ?_⟩
    subst same
    cases external
  | @apply node known =>
    rcases ((c.machines node).step_advances (c.raft.nodes node)).node with same | ⟨index, same⟩ | ⟨index, same⟩
    · exact Or.inl (by rw [interleaved, same, Raft.Cluster.setNode_self])
    · refine Or.inr ⟨.confirmSnapshotRestored node index, ?_, fun _ _ _ wrong => by cases wrong⟩
      simp only [Raft.Cluster.step, if_pos known, interleaved, same]
    · refine Or.inr ⟨.markApplied node index, ?_, fun _ _ _ wrong => by cases wrong⟩
      simp only [Raft.Cluster.step, if_pos known, interleaved, same]
  | @createSnapshot node index n known created =>
    simp only [interleaved, Option.ite_none_right_eq_some, Option.some.injEq] at created
    obtain ⟨idle, rfl⟩ := created
    rcases createSnapshot_cases (c.raft.nodes node) (c.machines node).sm index with
      same | ⟨creator, data, supports, current, bytes, same⟩
    · exact Or.inl (by rw [same, Raft.Cluster.setNode_self])
    · cases supports
      refine Or.inr ⟨.createSnapshot node index data, ?_, fun other number found equal => ?_⟩
      · simp only [Raft.Cluster.step, if_pos known, same]
      · cases equal
        exact ⟨known, idle, current, bytes⟩
  | storeFault => exact Or.inl rfl
  | restart moved => exact Or.inr ⟨_, moved, fun _ _ _ wrong => by cases wrong⟩

theorem step_moves (taken : c.step interleaved action = some after) (node : String) :
    Moves node (c.raft.nodes node) (c.machines node) action (after.raft.nodes node) (after.machines node) := by
  have still : ∀ other : String, node ≠ other → ∀ (n : Node) (a : Applier KVStateMachine),
      Moves node (c.raft.nodes node) (c.machines node) action ((c.raft.setNode other n).nodes node)
        (Function.update c.machines other a node) := by
    intro other different n a
    simp only [Raft.Cluster.setNode, Function.update_of_ne different]
    exact .undisturbed (.refl _)
  cases step_taken taken with
  | raft external moved => exact .undisturbed (Raft.Cluster.step_undisturbed external moved node)
  | @apply other known =>
    by_cases same : node = other
    · subst same
      simp only [Raft.Cluster.setNode, Function.update_self]
      exact .applied (Applier.step_advances _ _)
    · exact still other same _ _
  | @createSnapshot other index n known created =>
    simp only [interleaved, Option.ite_none_right_eq_some, Option.some.injEq] at created
    obtain ⟨idle, rfl⟩ := created
    by_cases same : node = other
    · subst same
      simp only [Raft.Cluster.setNode, Function.update_self]
      refine .undisturbed ?_
      rcases createSnapshot_cases (c.raft.nodes node) (c.machines node).sm index with
        same | ⟨creator, data, _, _, _, same⟩
      · rw [same]
        exact .refl _
      · rw [same]
        exact Node.createSnapshot_undisturbed _ _ _
    · have moved := still other same (createSnapshot (c.raft.nodes other) (c.machines other).sm index).1
        (c.machines other)
      rw [Function.update_eq_self] at moved
      exact moved
  | @storeFault other outcomes =>
    by_cases same : node = other
    · subst same
      simp only [Function.update_self]
      exact .failing outcomes
    · simp only [Function.update_of_ne same]
      exact .undisturbed (.refl _)
  | @restart other opts store raft moved =>
    obtain ⟨started, others⟩ := Raft.Cluster.step_restart moved
    by_cases same : node = other
    · subst same
      simp only [Function.update_self]
      exact .restarted opts store started
    · simp only [Function.update_of_ne same, others node same]
      exact .undisturbed (.refl _)

def place (c : Cluster (Applier KVStateMachine)) (node : String) (s : Node × Applier KVStateMachine) :
    Cluster (Applier KVStateMachine) :=
  ⟨c.raft.setNode node s.1, Function.update c.machines node s.2⟩

theorem place_step {node : String} (known : node ∈ c.raft.members) {s : Node × Applier KVStateMachine} :
    (c.place node s).step interleaved (.apply node) = some (c.place node (s.2.step s.1)) := by
  simp only [step, place, Raft.Cluster.setNode, Function.update_self, interleaved, if_pos known,
    Function.update_idem]

theorem place_runs {holds : Cluster (Applier KVStateMachine) → Action → Prop} {node : String}
    (known : node ∈ c.raft.members) {invariant : Node × Applier KVStateMachine → Prop}
    (closed : ∀ s t, Applier.Continues s t → invariant s → invariant t)
    (allowed : ∀ s, invariant s → s.2.phase ≠ .idle → holds (c.place node s) (.apply node))
    {s t : Node × Applier KVStateMachine} (first : invariant s) (run : Relation.ReflTransGen Applier.Continues s t) :
    RunsWhile interleaved holds (c.place node s) (c.place node t) := by
  induction run using Relation.ReflTransGen.head_induction_on with
  | refl => exact .refl
  | head moved _ ih =>
    refine .head ⟨.apply node, allowed _ first moved.1, ?_⟩ (ih (closed _ _ moved first))
    rw [place_step known, moved.2]

structure Refines (c : Cluster KVStateMachine) (f : Cluster (Applier KVStateMachine)) : Prop where
  raft : f.raft = c.raft
  machine : ∀ node, (f.machines node).sm = c.machines node
  idle : ∀ node, (f.machines node).phase = .idle

/-- A step of the coarse cluster is a run of the fine one. The fine steps meet a condition if the first
does and if every later one does at the states that a call in progress passes through. -/
theorem step_simulated {c after : Cluster KVStateMachine} {f : Cluster (Applier KVStateMachine)}
    {holds : Cluster (Applier KVStateMachine) → Action → Prop} (refines : Refines c f)
    (taken : c.step atomic action = some after) (permitted : holds f action)
    (invariant : String → Node × Applier KVStateMachine → Prop)
    (closed : ∀ node s t, Applier.Continues s t → invariant node s → invariant node t)
    (allowed : ∀ node s, action = .apply node → invariant node s → s.2.phase ≠ .idle →
      holds (f.place node s) (.apply node))
    (first : ∀ node, action = .apply node →
      invariant node (f.raft.nodes node, (f.machines node).start (f.raft.nodes node))) :
    ∃ g, RunsWhile interleaved holds f g ∧ Refines after g := by
  have single : ∀ g, f.step interleaved action = some g → Refines after g →
      ∃ g, RunsWhile interleaved holds f g ∧ Refines after g :=
    fun g moved same => ⟨g, .single ⟨action, permitted, moved⟩, same⟩
  obtain ⟨raft, machine, idle⟩ := refines
  cases step_taken taken with
  | @raft move raftAfter external moved =>
    refine single ⟨raftAfter, f.machines⟩ ?_ ⟨rfl, machine, idle⟩
    simp only [step, if_pos external, raft, moved, Option.map_some]
  | @apply node known =>
    rw [← raft] at known
    obtain ⟨b, run, rest, outcome⟩ := Applier.applyAvailable_ends (f.raft.nodes node) (f.machines node)
    have begun : f.step interleaved (.apply node) =
        some (f.place node (f.raft.nodes node, (f.machines node).start (f.raft.nodes node))) := by
      simp only [step, if_pos known, interleaved, Applier.step, idle node, place]
    have continued := place_runs known (closed node) (allowed node · rfl) (first node rfl) run
    refine ⟨_, .head ⟨.apply node, permitted, begun⟩ continued, ?_, fun other => ?_, fun other => ?_⟩
    · simp only [place, atomic, raft, machine]
    · simp only [place, atomic]
      by_cases same : other = node
      · subst same
        simp only [Function.update_self, ← raft, ← machine]
        exact congrArg Prod.fst outcome
      · simp only [Function.update_of_ne same, machine]
    · simp only [place]
      by_cases same : other = node
      · subst same
        rw [Function.update_self]
        exact rest
      · rw [Function.update_of_ne same]
        exact idle other
  | @createSnapshot node index n known created =>
    cases created
    refine single ⟨f.raft.setNode node (createSnapshot (f.raft.nodes node) (f.machines node).sm index).1, f.machines⟩
      ?_ ⟨?_, machine, idle⟩
    · simp only [step, raft, if_pos known, interleaved, if_pos (idle node), Option.map_some]
    · simp only [raft, machine]
  | @storeFault node outcomes =>
    refine single _ rfl ⟨raft, fun other => ?_, fun other => ?_⟩
    · by_cases same : other = node
      · subst same
        simp only [interleaved, atomic, Function.update_self, machine]
      · simp only [Function.update_of_ne same, machine]
    · by_cases same : other = node
      · subst same
        simp only [interleaved, Function.update_self, idle]
      · simp only [Function.update_of_ne same, idle]
  | @restart node opts store raftAfter moved =>
    refine single ⟨raftAfter, _⟩ (by simp only [step, raft, moved, Option.map_some]; rfl)
      ⟨rfl, fun other => ?_, fun other => ?_⟩
    · by_cases same : other = node
      · subst same
        simp only [interleaved, atomic, Function.update_self]
        rfl
      · simp only [Function.update_of_ne same, machine]
    · by_cases same : other = node
      · subst same
        simp only [interleaved, Function.update_self]
        rfl
      · simp only [Function.update_of_ne same, idle]

theorem atomic_refines {first c : Cluster KVStateMachine} (run : Runs atomic first c)
    {f : Cluster (Applier KVStateMachine)} (refines : Refines first f) :
    ∃ g, Runs interleaved f g ∧ Refines c g := by
  induction run with
  | refl => exact ⟨f, .refl, refines⟩
  | tail _ moved ih =>
    obtain ⟨g, done, middle⟩ := ih
    obtain ⟨action, _, taken⟩ := moved
    have simulated : ∃ last, Runs interleaved g last ∧ Refines _ last :=
      step_simulated middle taken trivial (fun _ _ => True) (by intros; trivial) (by intros; trivial)
        (by intros; trivial)
    obtain ⟨last, rest, same⟩ := simulated
    exact ⟨last, done.trans rest, same⟩

end Cluster

end ForgeDB.DBNode
