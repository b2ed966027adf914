import ForgeDB.Raft.Progress

/-!
Agreement across a cluster and across time: a committed entry is the same wherever and whenever
it is held, it stays where it is until a snapshot covers it, and a term has one leader.
-/

namespace ForgeDB.Raft

open Consensus

namespace Described

variable {record : Record} {c : Cluster}

theorem commit_le_last (described : Described record c) {node : String} (known : node ∈ c.members) :
    (c.nodes node).commitIndex ≤ (c.nodes node).log.lastIndex := by
  have reach := (described.nodes node known).2.settled.1
  rw [Log.window_last] at reach
  exact reach

theorem chosen (described : Described record c) {node : String} (known : node ∈ c.members) {index : Nat}
    {entry : LogEntry} (committed : index ≤ (c.nodes node).commitIndex)
    (held : (c.nodes node).log.entryAt index = some entry) : History.Chosen c.members record index entry := by
  obtain ⟨slot, rfl, present⟩ := Log.entryAt_cases held
  exact (described.nodes node known).2.settled.chosen present (Nat.lt_of_succ_le committed)

theorem covered (described : Described record c) {node : String} (known : node ∈ c.members) {index : Nat}
    (positive : 0 < index) (below : index ≤ (c.nodes node).log.sentinel.index) :
    ∃ snap, (c.nodes node).persister.snapshot = some snap ∧ index ≤ snap.lastIncludedIndex := by
  have ok := (described.nodes node known).2
  cases present : (c.nodes node).persister.snapshot with
  | none =>
    have zero := (ok.unsaved present).1
    have base : (c.nodes node).core.log.sentinel.index = (c.nodes node).log.sentinel.index := rfl
    omega
  | some snap => exact ⟨snap, rfl, below.trans (ok.saved snap present).1⟩

end Described

namespace Cluster

theorem Runs.members {first last : Cluster} (run : Runs first last) : last.members = first.members := by
  induction run with
  | refl => rfl
  | tail _ moved ih =>
    obtain ⟨action, taken⟩ := moved
    exact (step_nodes taken).1.trans ih

theorem step_keeps_committed {c after : Cluster} {action : Action} {record : Record}
    (described : Described record c) (taken : c.step action = some after) {node : String}
    (known : node ∈ c.members) {index : Nat} {entry : LogEntry}
    (committed : index ≤ (c.nodes node).commitIndex) (held : (c.nodes node).log.entryAt index = some entry) :
    (after.nodes node).log.entryAt index = some entry ∨
      index ≤ (after.nodes node).log.sentinel.index ∧
        ∃ snap, (after.nodes node).persister.snapshot = some snap ∧ index ≤ snap.lastIncludedIndex := by
  obtain ⟨larger, grown, describedAfter⟩ := step_described record c after described ⟨action, taken⟩
  obtain ⟨members, nodes⟩ := step_nodes taken
  have knownAfter : node ∈ after.members := by rw [members]; exact known
  obtain ⟨slot, place, present⟩ := Log.entryAt_cases held
  by_cases below : index ≤ (after.nodes node).log.sentinel.index
  · exact Or.inr ⟨below, describedAfter.covered knownAfter (by omega) below⟩
  left
  rcases nodes node with still | moved | ⟨opts, rfl, started⟩
  · rw [still]
    exact held
  · -- The commit index has not dropped, so the new log holds an agreed entry at this index.
    have reach := (committed.trans moved.onward.commit).trans (describedAfter.commit_le_last knownAfter)
    obtain ⟨found, there⟩ := Log.entryAt_of_le (Nat.lt_of_not_le below) reach
    have fresh := describedAfter.chosen knownAfter (committed.trans moved.onward.commit) there
    have old := (described.chosen known committed held).mono grown
    rw [← members] at old
    rw [there, describedAfter.sound.chosen_unique fresh old]
  · have log := restart_log described.numbered (described.nodes node known).2 rfl started
    have above : (c.nodes node).log.sentinel.index ≤
        (c.nodes node).persister.snapshot.elim 0 Snapshot.lastIncludedIndex :=
      (described.nodes node known).2.base_le_saved
    generalize (c.nodes node).persister.snapshot.elim 0 Snapshot.lastIncludedIndex = floor at log above
    generalize (c.nodes node).persister.snapshot.elim 0 Snapshot.lastIncludedTerm = floorTerm at log
    rw [log] at below ⊢
    have outside : floor < index := Nat.lt_of_not_le below
    have kept := Log.entryAt_rest (Log.newLogFromEntries floor floorTerm
      ((c.nodes node).log.rest.drop (floor - (c.nodes node).log.sentinel.index))) (index - floor - 1)
    have offset : floor + (index - floor - 1) + 1 = index := by omega
    simp only [Log.newLogFromEntries, offset, List.getElem?_drop] at kept ⊢
    rw [kept, ← present]
    congr 1
    omega

/-- State machine safety. In every reachable cluster the commit index lies inside the log; no step
removes or replaces a committed entry except by compacting it into a saved snapshot; and whoever
holds a committed entry at an index, now or later, holds the same one. -/
theorem committed_entry_final {first c : Cluster} (boot : first.Bootstrapped) (run : Runs first c) :
    (∀ node ∈ c.members, (c.nodes node).commitIndex ≤ (c.nodes node).log.lastIndex) ∧
    (∀ action after, c.step action = some after → ∀ node ∈ c.members, ∀ index entry,
      index ≤ (c.nodes node).commitIndex → (c.nodes node).log.entryAt index = some entry →
      (after.nodes node).log.entryAt index = some entry ∨
        index ≤ (after.nodes node).log.sentinel.index ∧
          ∃ snap, (after.nodes node).persister.snapshot = some snap ∧ index ≤ snap.lastIncludedIndex) ∧
    (∀ later, Runs c later → ∀ node ∈ c.members, ∀ other ∈ c.members, ∀ index entry found,
      index ≤ (c.nodes node).commitIndex → (c.nodes node).log.entryAt index = some entry →
      index ≤ (later.nodes other).commitIndex → (later.nodes other).log.entryAt index = some found →
      entry.term = found.term ∧ entry.command = found.command) := by
  obtain ⟨record, _, described⟩ := Runs.described boot.described run
  refine ⟨fun node known => described.commit_le_last known, ?_, ?_⟩
  · intro action after taken node known index entry committed held
    exact step_keeps_committed described taken known committed held
  · intro later rest node known other knownOther index entry found committed held committedLater heldLater
    obtain ⟨larger, grown, describedLater⟩ := rest.described described
    have members := rest.members
    have old := (described.chosen known committed held).mono grown
    have fresh := describedLater.chosen (by rw [members]; exact knownOther) committedLater heldLater
    rw [← members] at old
    rw [describedLater.sound.chosen_unique old fresh]
    exact ⟨rfl, rfl⟩

/-- One node is elected, proposes, commits with the help of a second and tells it so. -/
def commitScript : List Action :=
  [.tick "a", .deliver 0, .deliver 2, .propose "a" [7], .deliver 5, .deliver 7, .tick "a", .deliver 8]

theorem commitScript_commits :
    ((boot ["a", "b", "c"] 0).exec commitScript).map (fun c =>
      ((c.nodes "a").role, (c.nodes "a").commitIndex, (c.nodes "b").commitIndex)) = some (.leader, 1, 1) := by
  decide +kernel

theorem committed_entry_final_trio :
    ∃ c, (boot ["a", "b", "c"] 0).exec commitScript = some c ∧ (c.nodes "a").commitIndex = 1 ∧
      (c.nodes "b").commitIndex = 1 ∧ ∀ entry found, (c.nodes "a").log.entryAt 1 = some entry →
        (c.nodes "b").log.entryAt 1 = some found → entry.command = found.command := by
  obtain ⟨c, done, shape⟩ := Option.map_eq_some_iff.mp commitScript_commits
  simp only [Prod.mk.injEq] at shape
  obtain ⟨_, left, right⟩ := shape
  have members := (exec_runs done).members
  have final := (committed_entry_final (boot_bootstrapped 0 (by decide) (by decide)) (exec_runs done)).2.2
  refine ⟨c, done, left, right, fun entry found held heldLater => ?_⟩
  exact (final c Relation.ReflTransGen.refl "a" (by rw [members]; decide) "b" (by rw [members]; decide) 1 entry
    found left.ge held right.ge heldLater).2

/-- Election safety: two nodes that lead the same term, at whatever times, are one node. -/
theorem leader_unique {first c later : Cluster} (boot : first.Bootstrapped) (run : Runs first c)
    (rest : Runs c later) {node other : String} (known : node ∈ c.members) (knownOther : other ∈ c.members)
    (leads : (c.nodes node).role = .leader) (leadsLater : (later.nodes other).role = .leader)
    (sameTerm : (c.nodes node).currentTerm = (later.nodes other).currentTerm) : node = other := by
  obtain ⟨record, _, described⟩ := Runs.described boot.described run
  obtain ⟨larger, grown, describedLater⟩ := rest.described described
  obtain ⟨id, ok⟩ := described.nodes node known
  obtain ⟨idLater, okLater⟩ := describedLater.nodes other (by rw [rest.members]; exact knownOther)
  have elected := grown.leader _ _ (ok.leader leads).elected
  have electedLater := (okLater.leader leadsLater).elected
  have same : larger.leader (c.nodes node).currentTerm = larger.leader (later.nodes other).currentTerm :=
    congrArg larger.leader sameTerm
  have names : (c.nodes node).id = (later.nodes other).id :=
    Option.some.inj (elected.symm.trans (same.trans electedLater))
  rw [← id, names, idLater]

theorem leader_unique_trio :
    ∃ c, (boot ["a", "b", "c"] 0).exec commitScript = some c ∧ (c.nodes "a").role = .leader ∧
      ∀ other ∈ ["a", "b", "c"], (c.nodes other).role = .leader →
        (c.nodes "a").currentTerm = (c.nodes other).currentTerm → "a" = other := by
  obtain ⟨c, done, shape⟩ := Option.map_eq_some_iff.mp commitScript_commits
  simp only [Prod.mk.injEq] at shape
  have members : c.members = ["a", "b", "c"] := (exec_runs done).members
  refine ⟨c, done, shape.1, fun other known leads same => ?_⟩
  exact leader_unique (boot_bootstrapped 0 (by decide) (by decide)) (exec_runs done) Relation.ReflTransGen.refl
    (by rw [members]; decide) (by rw [members]; exact known) shape.1 leads same

end Cluster

end ForgeDB.Raft
