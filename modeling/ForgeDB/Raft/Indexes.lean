import ForgeDB.Raft.Handover
import ForgeDB.Raft.ReadBarrier

/-!
The indexes a node reports: its term, its snapshot boundary, its commit index and what it has applied.
None of them ever moves back, but for the last two when the node is restarted, and nothing counts as
applied that is not committed.
-/

namespace ForgeDB.Raft

structure Node.Forward (n after : Node) : Prop where
  term : n.currentTerm ≤ after.currentTerm
  boundary : n.log.sentinel.index ≤ after.log.sentinel.index
  commit : n.commitIndex ≤ after.commitIndex
  applied : n.lastApplied ≤ after.lastApplied
  behind : n.lastApplied ≤ n.commitIndex → after.lastApplied ≤ after.commitIndex

theorem Node.Forward.refl (n : Node) : Forward n n :=
  ⟨Nat.le_refl _, Nat.le_refl _, Nat.le_refl _, Nat.le_refl _, fun behind => behind⟩

theorem Node.Executes.forward {network : List Packet} {node : String} {action : Action} {n after : Node}
    (moved : Executes network node action n after) : Forward n after := by
  have onward := moved.onward
  have calm : Undisturbed n after → Forward n after := fun calm => ⟨onward.term, calm.boundary, calm.commit,
    calm.applied.ge, fun behind => calm.applied.le.trans (behind.trans calm.commit)⟩
  by_cases external : action.external = true
  · exact calm (moved.undisturbed external)
  cases moved with
  | createSnapshot _ index data => exact calm (n.createSnapshot_undisturbed index data)
  | confirmSnapshotRestored _ index =>
    rcases n.confirmSnapshotRestored_cases index with ⟨_, _, _, below, _, kept⟩ | ⟨_, same⟩
    · have applied : (n.confirmSnapshotRestored index).1.lastApplied = max n.lastApplied index :=
        congrArg Kept.lastApplied kept
      refine ⟨onward.term, (congrArg (fun k => k.log.sentinel.index) kept).ge, onward.commit, ?_, fun behind => ?_⟩
      · rw [applied]
        exact Nat.le_max_left _ _
      · rw [applied]
        exact (Nat.max_le.mpr ⟨behind, below⟩).trans onward.commit
    · rw [same]
      exact .refl n
  | markApplied _ index =>
    rcases n.markApplied_cases index with ⟨above, below, same⟩ | ⟨_, same⟩
    · rw [same]
      exact ⟨Nat.le_refl _, Nat.le_refl _, Nat.le_refl _, above.le, fun _ => below⟩
    · rw [same]
      exact .refl n
  | _ => exact absurd rfl external

namespace Cluster

theorem step_forward {c after : Cluster} {action : Action} {record : Record} (described : Described record c)
    (taken : c.step action = some after) {node : String} (known : node ∈ c.members) :
    (c.nodes node).Forward (after.nodes node) ∨ (∃ opts, action = .restart node opts) ∧
      (c.nodes node).currentTerm ≤ (after.nodes node).currentTerm ∧
      (c.nodes node).log.sentinel.index ≤ (after.nodes node).log.sentinel.index ∧
      (after.nodes node).lastApplied = 0 := by
  have term := step_term described taken known
  rcases (step_nodes taken).2 node with still | moved | ⟨opts, rfl, started⟩
  · rw [still]
    exact Or.inl (.refl _)
  · exact Or.inl moved.forward
  · obtain ⟨_, kept⟩ := newNode_kept started
    have boundary : (after.nodes node).log.sentinel.index =
        (c.nodes node).persister.snapshot.elim 0 Snapshot.lastIncludedIndex :=
      congrArg (fun k => k.log.sentinel.index) kept
    refine Or.inr ⟨⟨opts, rfl⟩, term, ?_, congrArg Kept.lastApplied kept⟩
    rw [boundary]
    exact (described.nodes node known).2.base_le_saved

theorem Runs.applied {first c : Cluster} (boot : first.Bootstrapped) (run : Runs first c) {node : String}
    (known : node ∈ c.members) : (c.nodes node).lastApplied ≤ (c.nodes node).commitIndex := by
  induction run with
  | refl =>
    rw [boot.applied known]
    exact Nat.zero_le _
  | tail before moved ih =>
    obtain ⟨action, taken⟩ := moved
    obtain ⟨_, _, described⟩ := Runs.described boot.described before
    rw [(step_nodes taken).1] at known
    rcases step_forward described taken known with forward | ⟨_, _, _, zero⟩
    · exact forward.behind (ih known)
    · rw [zero]
      exact Nat.zero_le _

/-- Along every run a node's term and boundary never move back, and unless it is restarted neither do its commit index
and what it has applied, which is committed at all times. -/
theorem indexes_never_back {first c later : Cluster} (boot : first.Bootstrapped) (start : Runs first c)
    {actions : List Action} (done : c.exec actions = some later) {node : String} (known : node ∈ c.members) :
    (c.nodes node).currentTerm ≤ (later.nodes node).currentTerm ∧
      (c.nodes node).log.sentinel.index ≤ (later.nodes node).log.sentinel.index ∧
      (later.nodes node).lastApplied ≤ (later.nodes node).commitIndex ∧
      ((∀ opts, Action.restart node opts ∉ actions) → (c.nodes node).commitIndex ≤ (later.nodes node).commitIndex ∧
        (c.nodes node).lastApplied ≤ (later.nodes node).lastApplied) := by
  induction actions generalizing c with
  | nil =>
    cases done
    exact ⟨Nat.le_refl _, Nat.le_refl _, start.applied boot known, fun _ => ⟨Nat.le_refl _, Nat.le_refl _⟩⟩
  | cons action actions ih =>
    obtain ⟨next, taken, rest⟩ := Option.bind_eq_some_iff.mp done
    obtain ⟨_, _, described⟩ := start.described boot.described
    obtain ⟨term, boundary, applied, forward⟩ :=
      ih (start.tail ⟨action, taken⟩) rest ((step_nodes taken).1 ▸ known)
    rcases step_forward described taken known with moved | ⟨⟨opts, restarted⟩, termBefore, boundaryBefore, _⟩
    · refine ⟨moved.term.trans term, moved.boundary.trans boundary, applied, fun running => ?_⟩
      obtain ⟨commit, more⟩ := forward fun opts inside => running opts (List.mem_cons_of_mem _ inside)
      exact ⟨moved.commit.trans commit, moved.applied.trans more⟩
    · refine ⟨termBefore.trans term, boundaryBefore.trans boundary, applied, fun running => ?_⟩
      exact absurd (restarted ▸ List.mem_cons_self) (running opts)

theorem indexes_never_back_trio :
    ∃ c, (boot ["a", "b", "c"] 0).exec commitScript = some c ∧ (c.nodes "a").commitIndex = 1 ∧
      ∀ later, c.exec [.tick "b", .deliver 12, .deliver 13] = some later → 1 ≤ (later.nodes "a").commitIndex := by
  obtain ⟨c, done, shape⟩ := Option.map_eq_some_iff.mp commitScript_commits
  simp only [Prod.mk.injEq] at shape
  have known : "a" ∈ c.members := by
    rw [(exec_runs done).members]
    decide
  refine ⟨c, done, shape.2.1, fun later further => ?_⟩
  have forward :=
    (indexes_never_back (boot_bootstrapped 0 (by decide) (by decide)) (exec_runs done) further known).2.2.2
  exact shape.2.1 ▸ (forward fun opts => by simp).1

end Cluster

end ForgeDB.Raft
