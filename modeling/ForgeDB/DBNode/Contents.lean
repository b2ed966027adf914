import ForgeDB.DBNode.Positions

/-!
What the state machines hold. As long as no snapshot is taken up that is older than what its node has applied,
every state machine is the result of the committed commands up to the node's count of applied entries.
-/

namespace ForgeDB.DBNode

open Raft (Node LogEntry Options)
open StateMachine

theorem createSnapshot_contents {sm other : KVStateMachine} (same : sm.contents = other.contents) :
    sm.createSnapshot = other.createSnapshot := by
  have table : sm.store.table = other.store.table := congrArg Contents.table same
  have dedup : sm.dedup = other.dedup := congrArg Contents.dedup same
  unfold KVStateMachine.createSnapshot MemStore.snapshot
  rw [table, dedup]

/-- The contents are those of the first `index` agreed commands, each of which has been seen. -/
def Reflects (members : List String) (record : Raft.Record) (seen : Nat → LogEntry → Prop) (index : Nat)
    (state : Contents) : Prop :=
  ∃ commands : List Bytes, commands.length = index ∧ Contents.replay commands = some state ∧
    ∀ slot command, commands[slot]? = some command → ∃ entry, entry.command = command ∧ seen (slot + 1) entry ∧
      Consensus.History.Chosen members record (slot + 1) entry

def meaning (members : List String) (record : Raft.Record) (seen : Nat → LogEntry → Prop) : Meaning KVStateMachine where
  good index data :=
    ∃ sm : KVStateMachine, Reflects members record seen index sm.contents ∧ sm.createSnapshot = .ok data
  agreed entry := seen entry.index entry ∧ Consensus.History.Chosen members record entry.index entry
  reflects index sm := Reflects members record seen index sm.contents

section Reflecting

variable {members : List String} {record larger : Raft.Record} {seen wider : Nat → LogEntry → Prop} {index : Nat}
  {state next : Contents}

theorem Reflects.mono (grown : record ≤ larger) (widened : ∀ index entry, seen index entry → wider index entry)
    (reflects : Reflects members record seen index state) : Reflects members larger wider index state := by
  obtain ⟨commands, length, replayed, agreed⟩ := reflects
  refine ⟨commands, length, replayed, fun slot command found => ?_⟩
  obtain ⟨entry, same, known, chosen⟩ := agreed slot command found
  exact ⟨entry, same, widened _ _ known, chosen.mono grown⟩

theorem meaning_extends (grown : record ≤ larger) (widened : ∀ index entry, seen index entry → wider index entry) :
    (meaning members record seen).Extends (meaning members larger wider) where
  good _ _ := fun ⟨sm, reflects, created⟩ => ⟨sm, reflects.mono grown widened, created⟩
  agreed _ := fun ⟨known, chosen⟩ => ⟨widened _ _ known, chosen.mono grown⟩
  reflects _ _ := Reflects.mono grown widened

theorem Reflects.unique (sound : Consensus.History.Sound members record)
    (left : Reflects members record seen index state) (right : Reflects members record seen index next) :
    state = next := by
  obtain ⟨commands, length, replayed, agreed⟩ := left
  obtain ⟨others, lengthOthers, replayedOthers, agreedOthers⟩ := right
  have same : commands = others := by
    apply List.ext_getElem?
    intro slot
    by_cases inside : slot < index
    · obtain ⟨command, found⟩ : ∃ command, commands[slot]? = some command :=
        ⟨_, List.getElem?_eq_getElem (by omega)⟩
      obtain ⟨other, foundOther⟩ : ∃ other, others[slot]? = some other := ⟨_, List.getElem?_eq_getElem (by omega)⟩
      obtain ⟨entry, rfl, _, chosen⟩ := agreed slot command found
      obtain ⟨entryOther, rfl, _, chosenOther⟩ := agreedOthers slot other foundOther
      rw [found, foundOther, sound.chosen_unique chosen chosenOther]
    · rw [List.getElem?_eq_none (by omega), List.getElem?_eq_none (by omega)]
  subst same
  exact Option.some.inj (replayed.symm.trans replayedOthers)

theorem meaning_unique (sound : Consensus.History.Sound members record) (index : Nat) (left right : Bytes)
    (goodLeft : (meaning members record seen).good index left)
    (goodRight : (meaning members record seen).good index right) : left = right := by
  obtain ⟨sm, reflects, created⟩ := goodLeft
  obtain ⟨other, reflectsOther, createdOther⟩ := goodRight
  rw [createSnapshot_contents (reflects.unique sound reflectsOther), createdOther] at created
  exact (Except.ok.inj created).symm

theorem Reflects.snoc {entry : LogEntry} (reflects : Reflects members record seen index state)
    (known : seen (index + 1) entry) (chosen : Consensus.History.Chosen members record (index + 1) entry)
    (applied : state.apply entry.command = some next) : Reflects members record seen (index + 1) next := by
  obtain ⟨commands, rfl, replayed, agreed⟩ := reflects
  refine ⟨commands ++ [entry.command], by simp, Contents.replay_snoc replayed applied, fun slot command found => ?_⟩
  rcases Nat.lt_trichotomy slot commands.length with old | rfl | outside
  · rw [List.getElem?_append_left old] at found
    exact agreed slot command found
  · rw [List.getElem?_append_right (Nat.le_refl _), Nat.sub_self] at found
    cases found
    exact ⟨entry, rfl, known, chosen⟩
  · rw [List.getElem?_eq_none (by simp; omega)] at found
    cases found

theorem meaning_sound : (meaning members record seen).Sound where
  restored restorer supports index data sm after good restored := by
    cases supports
    obtain ⟨source, reflects, created⟩ := good
    have known := Contents.replay_known reflects.choose_spec.2.1
    have same := KVStateMachine.restoreSnapshot_contents known created restored
    simp only [meaning, same]
    exact reflects
  applied position sm entry cmd after result reflects agreed next decoded ran := by
    have applied := KVStateMachine.contents_apply decoded ran
    simp only [meaning] at reflects agreed ⊢
    rw [next] at agreed ⊢
    exact reflects.snoc agreed.1 agreed.2 applied
  refused position sm cmd after error reflects ran := by
    have same := (sm.apply_resolves cmd).unresolved error (by rw [show sm.apply cmd = _ from ran])
    rw [show sm.apply cmd = _ from ran] at same
    simp only [meaning, same]
    exact reflects

end Reflecting

def Witnessed (seen : Nat → LogEntry → Prop) (c : Raft.Cluster) : Prop :=
  ∀ node ∈ c.members, ∀ index entry, index ≤ (c.nodes node).commitIndex →
    (c.nodes node).log.entryAt index = some entry → seen index entry

structure Faithful (record : Raft.Record) (seen : Nat → LogEntry → Prop) (c : Cluster (Applier KVStateMachine)) :
    Prop where
  described : Raft.Described record c.raft
  carries : c.raft.Carries (meaning c.raft.members record seen).good
  restorable : ∀ node ∈ c.raft.members, (c.raft.nodes node).kept.Restorable
  aligned : ∀ node ∈ c.raft.members,
    Applier.Aligned (meaning c.raft.members record seen) (c.raft.nodes node) (c.machines node)

theorem Faithful.widen {record : Raft.Record} {seen wider : Nat → LogEntry → Prop}
    {c : Cluster (Applier KVStateMachine)} (widened : ∀ index entry, seen index entry → wider index entry)
    (faithful : Faithful record seen c) :
    Faithful record wider c where
  described := faithful.described
  carries := faithful.carries.mono (meaning_extends (le_refl record) widened).good
  restorable := faithful.restorable
  aligned node known := (faithful.aligned node known).mono (meaning_extends (le_refl record) widened)

namespace Cluster

/-- Every applier takes its steps in order, and a node that restarts finds an empty store. -/
def OrderlyEverywhere (c : Cluster (Applier KVStateMachine)) (action : Action) : Prop :=
  Orderly c action ∧ ∀ store ∈ action.leftover, store.table = SortedMap.empty

instance (c : Cluster (Applier KVStateMachine)) (action : Action) : Decidable (OrderlyEverywhere c action) :=
  inferInstanceAs (Decidable (_ ∧ _))

variable {c after : Cluster (Applier KVStateMachine)} {action : Action} {record : Raft.Record}
  {seen : Nat → LogEntry → Prop}

theorem step_faithful (witnessed : Witnessed seen c.raft) (orderly : OrderlyEverywhere c action)
    (taken : c.step interleaved action = some after) (faithful : Faithful record seen c) :
    ∃ larger, record ≤ larger ∧ Faithful larger seen after := by
  have members := step_members taken
  obtain ⟨larger, grown, described⟩ := step_described faithful.described taken
  have extended : (meaning c.raft.members record seen).Extends (meaning c.raft.members larger seen) :=
    meaning_extends grown fun _ _ known => known
  refine ⟨larger, grown, described, ?_, fun node known => ?_, fun node known => ?_⟩
  · rw [members]
    refine Raft.Cluster.Carries.mono extended.good ?_
    rcases step_raft taken with same | ⟨move, moved, created⟩
    · rw [same]
      exact faithful.carries
    · refine Raft.Cluster.step_carries (.of_unique (meaning_unique faithful.described.sound)) faithful.described
        faithful.carries
        (fun node index data same above _ => ?_) moved
      obtain ⟨known, idle, rfl, bytes⟩ := created node index data same
      have aligned := faithful.aligned node known
      simp only [Applier.Aligned, idle] at aligned
      rcases aligned with ⟨position, reflects⟩ | awaiting
      · rw [position] at reflects
        exact ⟨_, reflects, bytes⟩
      · exact absurd awaiting.applied (Nat.not_le_of_lt above)
  · rw [members] at known
    exact (step_moves taken node).restorable (faithful.restorable node known)
  · rw [members] at known ⊢
    refine Applier.Aligned.mono extended ?_
    refine (step_moves taken node).aligned meaning_sound (fun _ _ _ reflects => reflects) (fun same => ?_)
      (fun opts store same => ?_) (faithful.restorable node known)
      (faithful.carries.nodes node known).pending (fun index entry committed held => ?_) (faithful.aligned node known)
    · subst same
      exact orderly.1
    · subst same
      refine ⟨[], rfl, congrArg some ?_, fun _ _ found => by cases found⟩
      rw [newKVStateMachine, KVStateMachine.contents, orderly.2 store rfl]
      rfl
    · have chosen := faithful.described.chosen known committed held
      have same := faithful.described.chosen_index chosen
      have known := witnessed node known index entry committed held
      subst same
      exact ⟨rfl, known, chosen⟩

theorem runs_faithful
    (run : RunsWhile interleaved (fun g move => OrderlyEverywhere g move ∧ Witnessed seen g.raft) c after)
    (faithful : Faithful record seen c) : ∃ larger, record ≤ larger ∧ Faithful larger seen after := by
  induction run with
  | refl => exact ⟨record, le_refl record, faithful⟩
  | tail _ moved ih =>
    obtain ⟨larger, grown, here⟩ := ih
    obtain ⟨action, ⟨orderly, witnessed⟩, taken⟩ := moved
    obtain ⟨largest, further, there⟩ := step_faithful witnessed orderly taken here
    exact ⟨largest, grown.trans further, there⟩

def rest (c : Cluster KVStateMachine) : Cluster (Applier KVStateMachine) :=
  ⟨c.raft, fun node => newApplier (c.machines node)⟩

theorem Bootstrapped.faithful {first : Cluster (Applier KVStateMachine)} (boot : first.Bootstrapped interleaved) :
    Faithful Raft.Record.empty seen first where
  described := boot.raft.described
  carries := boot.raft.carries
  restorable _ := boot.raft.restorable
  aligned node known := by
    obtain ⟨faults, empty⟩ := boot.empty node known
    rw [empty]
    exact Or.inl ⟨(boot.raft.applied known).symm, [], rfl, rfl, nofun⟩

theorem Bootstrapped.rest {first : Cluster KVStateMachine} (boot : first.Bootstrapped atomic) :
    first.rest.Bootstrapped interleaved :=
  ⟨boot.raft, fun node known => (boot.empty node known).imp fun _ empty => congrArg newApplier empty⟩

/-- A snapshot that a node's applier takes up is not older than what the node has applied, and no node
restarts. -/
def Timely (c : Cluster KVStateMachine) : Action → Prop
  | .apply node => ∀ snap ∈ (c.raft.nodes node).pendingSnapshot,
    (c.raft.nodes node).lastApplied ≤ snap.lastIncludedIndex
  | .restart .. => False
  | _ => True

instance (c : Cluster KVStateMachine) : (action : Action) → Decidable (Timely c action)
  | .apply node => inferInstanceAs (Decidable (∀ snap ∈ (c.raft.nodes node).pendingSnapshot,
    (c.raft.nodes node).lastApplied ≤ snap.lastIncludedIndex))
  | .restart .. => inferInstanceAs (Decidable False)
  | .raft _ | .createSnapshot .. | .storeFault .. => inferInstanceAs (Decidable True)

/-- Somewhere on the way from the first cluster to the second, a member held this entry as committed. -/
def CommittedOnTheWay (first c : Cluster KVStateMachine) (index : Nat) (entry : LogEntry) : Prop :=
  ∃ mid, RunsWhile atomic Timely first mid ∧ RunsWhile atomic Timely mid c ∧ ∃ node ∈ mid.raft.members,
    index ≤ (mid.raft.nodes node).commitIndex ∧ (mid.raft.nodes node).log.entryAt index = some entry

theorem step_timely {c after : Cluster KVStateMachine} {f : Cluster (Applier KVStateMachine)}
    (refines : Refines c f) (timely : Timely c action) (taken : c.step atomic action = some after)
    (witnessed : Witnessed seen c.raft) (faithful : Faithful record seen f) :
    ∃ g larger, Refines after g ∧ Faithful larger seen g := by
  have raft := refines.raft
  let passes (node : String) (s : Node × Applier KVStateMachine) : Prop :=
    s.1.kept.Restorable ∧ s.2.Current s.1 ∧ s.1.core = (f.raft.nodes node).core
  have permitted : OrderlyEverywhere f action ∧ Witnessed seen f.raft := by
    refine ⟨?_, by rw [raft]; exact witnessed⟩
    cases action with
    | apply node =>
      refine ⟨?_, nofun⟩
      simp only [Orderly, Applier.Orderly, refines.idle node, raft]
      exact timely
    | restart node opts store => exact absurd timely not_false
    | _ => exact ⟨trivial, nofun⟩
  have closed : ∀ node s t, Applier.Continues s t → passes node s → passes node t := by
    rintro node s t ⟨busy, rfl⟩ ⟨restorable, current, same⟩
    have advances := s.2.step_advances s.1
    refine ⟨advances.restorable restorable, advances.current busy current, ?_⟩
    rcases advances.node with still | ⟨index, moved⟩ | ⟨index, moved⟩
    · rw [still, same]
    · rw [moved, Node.confirmSnapshotRestored_core, same]
    · rw [moved, Node.markApplied_core, same]
  have allowed : ∀ node s, action = .apply node → passes node s → s.2.phase ≠ .idle →
      OrderlyEverywhere (f.place node s) (.apply node) ∧ Witnessed seen (f.place node s).raft := by
    rintro node s - ⟨restorable, current, same⟩ busy
    refine ⟨⟨?_, nofun⟩, fun other known index entry committed held => ?_⟩
    · simp only [Orderly, place, Raft.Cluster.setNode, Function.update_self]
      exact current.orderly busy restorable
    · simp only [place, Raft.Cluster.setNode] at known committed held
      by_cases here : other = node
      · subst here
        rw [Function.update_self] at committed held
        rw [show s.1.commitIndex = _ from congrArg Raft.Core.commitIndex same] at committed
        rw [show s.1.log = _ from congrArg Raft.Core.log same] at held
        exact permitted.2 other known index entry committed held
      · rw [Function.update_of_ne here] at committed held
        exact permitted.2 other known index entry committed held
  have first : ∀ node, action = .apply node →
      passes node (f.raft.nodes node, (f.machines node).start (f.raft.nodes node)) := by
    rintro node rfl
    simp only [step] at taken
    split at taken
    · rename_i known
      rw [← raft] at known
      exact ⟨faithful.restorable node known, Applier.start_current _ _, rfl⟩
    · cases taken
  have simulated : ∃ g, RunsWhile interleaved (fun g move => OrderlyEverywhere g move ∧ Witnessed seen g.raft) f g ∧
      Refines after g := step_simulated refines taken permitted passes closed allowed first
  obtain ⟨g, run, refinesAfter⟩ := simulated
  obtain ⟨larger, _, there⟩ := runs_faithful run faithful
  exact ⟨g, larger, refinesAfter, there⟩

/-- The state machine is the result of the committed log. In every timely run from empty directories,
whenever no snapshot waits on a node, its pairs and its table of requests are those of the empty
state machine after the committed commands up to what the node has applied. -/
theorem contents_replayed {first c : Cluster KVStateMachine} (boot : first.Bootstrapped atomic)
    (run : RunsWhile atomic Timely first c) {node : String} (known : node ∈ c.raft.members)
    (clear : (c.raft.nodes node).pendingSnapshot = none) :
    ∃ commands : List Bytes, commands.length = (c.raft.nodes node).lastApplied ∧
      Contents.replay commands = some (c.machines node).contents ∧
      ∀ slot command, commands[slot]? = some command →
        (∃ entry, entry.command = command ∧ CommittedOnTheWay first c (slot + 1) entry) ∧
        ∀ other ∈ c.raft.members, ∀ entry, slot + 1 ≤ (c.raft.nodes other).commitIndex →
          (c.raft.nodes other).log.entryAt (slot + 1) = some entry → entry.command = command := by
  have here : ∃ f record, Refines c f ∧ Faithful record (CommittedOnTheWay first c) f := by
    clear known clear
    induction run with
    | refl => exact ⟨first.rest, _, ⟨rfl, fun _ => rfl, fun _ => rfl⟩, boot.rest.faithful⟩
    | tail before moved ih =>
      rename_i middle last
      obtain ⟨f, record, refines, faithful⟩ := ih
      obtain ⟨action, timely, taken⟩ := moved
      have witnessed : Witnessed (CommittedOnTheWay first middle) middle.raft :=
        fun node known index entry committed held => ⟨middle, before, .refl, node, known, committed, held⟩
      obtain ⟨g, larger, refinesAfter, there⟩ := step_timely refines timely taken witnessed faithful
      refine ⟨g, larger, refinesAfter, there.widen ?_⟩
      rintro index entry ⟨mid, start, rest, held⟩
      exact ⟨mid, start, rest.tail ⟨action, timely, taken⟩, held⟩
  obtain ⟨f, record, refines, faithful⟩ := here
  have raft := refines.raft
  have aligned := faithful.aligned node (by rw [raft]; exact known)
  simp only [Applier.Aligned, refines.idle node, raft] at aligned
  rcases aligned with ⟨position, reflects⟩ | awaiting
  · rw [position] at reflects
    obtain ⟨commands, length, replayed, agreed⟩ := reflects
    rw [refines.machine node] at replayed
    refine ⟨commands, length, replayed, fun slot command found => ?_⟩
    obtain ⟨entry, same, onTheWay, chosen⟩ := agreed slot command found
    refine ⟨⟨entry, same, onTheWay⟩, fun other member held committed present => ?_⟩
    have described := faithful.described
    rw [raft] at described
    rw [← same, described.sound.chosen_unique (described.chosen member committed present) chosen]
  · have waits := awaiting.pending
    rw [clear] at waits
    cases waits

/-- Two writes are committed, the first is applied by the leader and replaced by a snapshot. Both writes
and then the snapshot are on their way to the second node. -/
def overtaken : List Action :=
  [.raft (.tick "a"), .raft (.deliver 1), .raft (.deliver 2), .raft (.propose "a" (write 1 1)), .raft (.deliver 6),
    .raft (.deliver 7), .apply "a", .raft (.propose "a" (write 2 2)), .raft (.deliver 9), .raft (.deliver 10),
    .raft (.tick "a"), .createSnapshot "a" 1, .raft (.tick "a"), .raft (.deliver 14)]

/-- What a node has applied, whether a snapshot waits, and the commands it holds as committed. -/
def progress (node : String) (c : Cluster KVStateMachine) : Nat × Bool × List Bytes :=
  ((c.raft.nodes node).lastApplied, (c.raft.nodes node).pendingSnapshot.isSome,
    ((c.raft.nodes node).committedEntries 1).map LogEntry.command)

theorem contents_replayed_trio :
    ∃ c, (boot atomic ["a", "b", "c"] 0).execWhile atomic Timely
        (overtaken ++ [.raft (.deliver 13), .apply "b", .raft (.deliver 16), .raft (.tick "a"), .raft (.deliver 17),
          .apply "b"]) = some c ∧
      progress "b" c = (2, false, [write 2 2]) ∧
      ∃ commands : List Bytes, commands.length = 2 ∧ Contents.replay commands = some (c.machines "b").contents := by
  have shape : ((boot atomic ["a", "b", "c"] 0).execWhile atomic Timely
      (overtaken ++ [.raft (.deliver 13), .apply "b", .raft (.deliver 16), .raft (.tick "a"), .raft (.deliver 17),
        .apply "b"])).map (progress "b") = some (2, false, [write 2 2]) := by
    decide +kernel
  obtain ⟨c, done, state⟩ := Option.map_eq_some_iff.mp shape
  have applied : (c.raft.nodes "b").lastApplied = 2 := congrArg Prod.fst state
  have clear : (c.raft.nodes "b").pendingSnapshot = none :=
    Option.isNone_iff_eq_none.mp (Option.isSome_eq_false_iff.mp (congrArg (fun shown => shown.2.1) state))
  have known : "b" ∈ c.raft.members := by
    rw [(execWhile_runs done).members]
    decide
  obtain ⟨commands, length, replayed, _⟩ := contents_replayed (boot_bootstrapped atomic 0 (by decide) (by decide))
    (execWhile_runs done) known clear
  exact ⟨c, done, state, commands, length.trans applied, replayed⟩

theorem contents_rolled_back :
    ∃ c, RunsWhile atomic (fun _ action => action.restarts = false) (boot atomic ["a", "b", "c"] 0) c ∧
      progress "b" c = (2, false, [write 2 2]) ∧ progress "c" c = (0, false, [write 1 1, write 2 2]) ∧
      Contents.replay [write 1 1, write 2 2] ≠ some (c.machines "b").contents := by
  have shape : ((boot atomic ["a", "b", "c"] 0).execWhile atomic (fun _ action => action.restarts = false)
      (overtaken ++ [.raft (.deliver 11), .apply "b", .raft (.deliver 13), .apply "b"])).map (fun c =>
        decide (progress "b" c = (2, false, [write 2 2]) ∧ progress "c" c = (0, false, [write 1 1, write 2 2]) ∧
          Contents.replay [write 1 1, write 2 2] ≠ some (c.machines "b").contents)) = some true := by
    decide +kernel
  obtain ⟨c, done, state⟩ := Option.map_eq_some_iff.mp shape
  exact ⟨c, execWhile_runs done, of_decide_eq_true state⟩

theorem timely_faithful {first c : Cluster KVStateMachine} (boot : first.Bootstrapped atomic)
    (run : RunsWhile atomic Timely first c) : ∃ f record, Refines c f ∧ Faithful record (fun _ _ => True) f := by
  induction run with
  | refl => exact ⟨first.rest, _, ⟨rfl, fun _ => rfl, fun _ => rfl⟩, boot.rest.faithful⟩
  | tail _ moved ih =>
    obtain ⟨f, record, refines, faithful⟩ := ih
    obtain ⟨action, timely, taken⟩ := moved
    obtain ⟨g, larger, refinesAfter, there⟩ :=
      step_timely refines timely taken (fun _ _ _ _ _ _ => trivial) faithful
    exact ⟨g, larger, refinesAfter, there⟩

theorem Refines.reflects {c : Cluster KVStateMachine} {f : Cluster (Applier KVStateMachine)} (refines : Refines c f)
    (faithful : Faithful record seen f) {node : String} (known : node ∈ c.raft.members)
    (clear : (c.raft.nodes node).pendingSnapshot = none) :
    Reflects c.raft.members record seen (c.raft.nodes node).lastApplied (c.machines node).contents := by
  have aligned := faithful.aligned node (by rw [refines.raft]; exact known)
  simp only [Applier.Aligned, refines.idle node, refines.raft] at aligned
  rcases aligned with ⟨position, reflects⟩ | awaiting
  · rw [position, refines.machine node] at reflects
    exact reflects
  · have waits := awaiting.pending
    rw [clear] at waits
    cases waits

/-- Replicas agree. In every timely run a replica that has applied fewer entries is in an earlier state of the other:
what it lacks are the commands in between. With equally many entries applied the two hold the same, whether they got
there entry by entry or from a snapshot. -/
theorem replicas_agree {first c : Cluster KVStateMachine} (boot : first.Bootstrapped atomic)
    (run : RunsWhile atomic Timely first c) {node other : String} (known : node ∈ c.raft.members)
    (knownOther : other ∈ c.raft.members) (clear : (c.raft.nodes node).pendingSnapshot = none)
    (clearOther : (c.raft.nodes other).pendingSnapshot = none)
    (behind : (c.raft.nodes node).lastApplied ≤ (c.raft.nodes other).lastApplied) :
    ∃ commands more : List Bytes, commands.length = (c.raft.nodes node).lastApplied ∧
      commands.length + more.length = (c.raft.nodes other).lastApplied ∧
      Contents.replay commands = some (c.machines node).contents ∧
      Contents.replay (commands ++ more) = some (c.machines other).contents := by
  obtain ⟨f, record, refines, faithful⟩ := timely_faithful boot run
  have sound := faithful.described.sound
  rw [refines.raft] at sound
  obtain ⟨commands, length, replayed, agreed⟩ := refines.reflects faithful known clear
  obtain ⟨others, lengthOthers, replayedOthers, agreedOthers⟩ := refines.reflects faithful knownOther clearOther
  have same : commands = others.take commands.length := by
    apply List.ext_getElem?
    intro slot
    by_cases inside : slot < commands.length
    · have found := List.getElem?_eq_getElem inside
      have foundOther := List.getElem?_eq_getElem (show slot < others.length by omega)
      obtain ⟨entry, command, _, chosen⟩ := agreed slot _ found
      obtain ⟨entryOther, commandOther, _, chosenOther⟩ := agreedOthers slot _ foundOther
      rw [List.getElem?_take_of_lt inside, found, foundOther, ← command, ← commandOther,
        sound.chosen_unique chosen chosenOther]
    · rw [List.getElem?_eq_none (by omega), List.getElem?_eq_none (by simp; omega)]
  refine ⟨commands, others.drop commands.length, length, ?_, replayed, ?_⟩
  · rw [List.length_drop]
    omega
  · rw [same, List.length_take, Nat.min_eq_left (by omega), List.take_append_drop]
    exact replayedOthers

theorem replicas_agree_snapshot :
    ∃ c, (boot atomic ["a", "b", "c"] 0).execWhile atomic Timely
        (overtaken ++ [.raft (.deliver 13), .apply "b", .raft (.deliver 16), .raft (.tick "a"), .raft (.deliver 17),
          .apply "b", .apply "a"]) = some c ∧
      progress "a" c = (2, false, [write 2 2]) ∧ progress "b" c = (2, false, [write 2 2]) ∧
      ∃ commands more : List Bytes, commands.length = 2 ∧ commands.length + more.length = 2 ∧
        Contents.replay commands = some (c.machines "a").contents ∧
        Contents.replay (commands ++ more) = some (c.machines "b").contents := by
  have shape : ((boot atomic ["a", "b", "c"] 0).execWhile atomic Timely
      (overtaken ++ [.raft (.deliver 13), .apply "b", .raft (.deliver 16), .raft (.tick "a"), .raft (.deliver 17),
        .apply "b", .apply "a"])).map (fun c => (progress "a" c, progress "b" c)) =
      some ((2, false, [write 2 2]), (2, false, [write 2 2])) := by
    decide +kernel
  obtain ⟨c, done, state⟩ := Option.map_eq_some_iff.mp shape
  obtain ⟨left, right⟩ := Prod.mk.inj state
  have members : c.raft.members = ["a", "b", "c"] := (execWhile_runs done).members
  have applied : ∀ {node : String} {commands : List Bytes}, progress node c = (2, false, commands) →
      (c.raft.nodes node).lastApplied = 2 ∧ (c.raft.nodes node).pendingSnapshot = none := fun shown =>
    ⟨congrArg Prod.fst shown,
      Option.isNone_iff_eq_none.mp (Option.isSome_eq_false_iff.mp (congrArg (fun shown => shown.2.1) shown))⟩
  have agree := replicas_agree (boot_bootstrapped atomic 0 (by decide) (by decide)) (execWhile_runs done)
    (show "a" ∈ c.raft.members by rw [members]; decide) (show "b" ∈ c.raft.members by rw [members]; decide)
    (applied left).2 (applied right).2 (by rw [(applied left).1, (applied right).1])
  rw [(applied left).1, (applied right).1] at agree
  exact ⟨c, done, left, right, agree⟩

end Cluster

end ForgeDB.DBNode
