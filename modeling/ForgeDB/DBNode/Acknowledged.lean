import ForgeDB.DBNode.Positions

/-!
Acknowledged writes. A caller proposes a command, learns its index and term, and waits until its node has
applied that index. What was applied is the caller's own entry whenever that entry was committed before another
leader could replace it, and may be another's otherwise.
-/

namespace ForgeDB.DBNode

open Raft (Node LogEntry Options)
open StateMachine Consensus

inductive ProposeError where
  | encode (cause : CommandError)
  | raft (cause : Raft.RaftError)
  deriving DecidableEq

def ProposeError.text : ProposeError → String
  | encode cause => s!"dbnode: encode command: {cause.text}"
  | raft cause => cause.text

def propose (n : Node) (cmd : Command) : Node × Except ProposeError (Nat × Nat) :=
  match cmd.encode with
  | .error cause => (n, .error (.encode cause))
  | .ok encoded =>
    match n.propose encoded with
    | (n, .error cause, _) => (n, .error (.raft cause))
    | (n, .ok place, _) => (n, .ok place)

def waitApplied (n : Node) (target : Nat) : Bool := target ≤ n.lastApplied

def fetched : Phase → List LogEntry
  | .entries todo => todo
  | .mark _ todo => todo
  | _ => []

structure Settled (members : List String) (record : Raft.Record) (n : Node) (a : Applier KVStateMachine) : Prop where
  applied : n.lastApplied ≤ n.commitIndex
  fetched : ∀ entry ∈ fetched a.phase, History.Chosen members record entry.index entry
  handed : ∀ entry position, (entry, position) ∈ a.handed → History.Chosen members record entry.index entry

section Settling

variable {members : List String} {record larger : Raft.Record} {node : String} {n after : Node}
  {a next : Applier KVStateMachine} {action : Action}

theorem Settled.mono (grown : record ≤ larger) (settled : Settled members record n a) : Settled members larger n a :=
  ⟨settled.applied, fun entry inside => (settled.fetched entry inside).mono grown,
    fun entry position inside => (settled.handed entry position inside).mono grown⟩

theorem Advances.settled (advances : Applier.Advances n a after next)
    (committed : ∀ index entry, index ≤ n.commitIndex → n.log.entryAt index = some entry →
      History.Chosen members record entry.index entry)
    (settled : Settled members record n a) : Settled members record after next := by
  have fetched := settled.fetched
  have handed := settled.handed
  have given : ∀ entry todo, a.phase = .entries (entry :: todo) → ∀ found position,
      (found, position) ∈ (entry, a.position) :: a.handed → History.Chosen members record found.index found := by
    intro entry todo phase found position present
    rw [phase] at fetched
    rcases List.mem_cons.mp present with first | old
    · cases first
      exact fetched entry List.mem_cons_self
    · exact handed found position old
  cases advances with
  | @confirmed index _ phase ran =>
    rcases n.confirmSnapshotRestored_cases index with ⟨_, _, _, below, _, kept⟩ | ⟨error, same⟩
    · have core := n.confirmSnapshotRestored_core index
      rw [ran] at kept core
      have commit : after.commitIndex = n.commitIndex := congrArg Raft.Core.commitIndex core
      have count : after.lastApplied = max n.lastApplied index := congrArg Raft.Kept.lastApplied kept
      refine ⟨?_, nofun, handed⟩
      rw [commit, count]
      exact max_le settled.applied below
    · rw [same] at ran
      cases ran
  | fetched phase =>
    refine ⟨settled.applied, fun entry inside => ?_, handed⟩
    obtain ⟨index, below, held⟩ := Node.committedEntries_mem inside
    exact committed index entry below held
  | refused phase => exact ⟨settled.applied, nofun, given _ _ phase⟩
  | applied phase =>
    refine ⟨settled.applied, fun entry inside => ?_, given _ _ phase⟩
    rw [phase] at fetched
    exact fetched entry (List.mem_cons_of_mem _ inside)
  | marked phase above below =>
    rw [phase] at fetched
    exact ⟨below, fetched, handed⟩
  | _ => exact ⟨settled.applied, nofun, handed⟩

theorem Moves.settled (moved : Moves node n a action after next)
    (committed : ∀ index entry, index ≤ n.commitIndex → n.log.entryAt index = some entry →
      History.Chosen members record entry.index entry)
    (settled : Settled members record n a) : Settled members record after next := by
  cases moved with
  | undisturbed calm =>
    refine ⟨?_, settled.fetched, settled.handed⟩
    rw [calm.applied]
    exact settled.applied.trans calm.commit
  | applied advances => exact Advances.settled advances committed settled
  | failing => exact ⟨settled.applied, settled.fetched, settled.handed⟩
  | restarted opts store started =>
    obtain ⟨suffix, kept⟩ := Raft.newNode_kept started
    refine ⟨?_, nofun, settled.handed⟩
    rw [show after.lastApplied = 0 from congrArg Raft.Kept.lastApplied kept]
    exact Nat.zero_le _

theorem covered_start {opts : Options} (started : Raft.newNode opts = .ok after) (fresh : next.position = 0) :
    Applier.Covered after next := by
  obtain ⟨suffix, kept⟩ := Raft.newNode_kept started
  refine ⟨fun index positive inside => ?_, fun index positive inside => ?_⟩
  · omega
  · rw [show after.lastApplied = 0 from congrArg Raft.Kept.lastApplied kept] at inside
    omega

theorem Moves.covered {m : Meaning KVStateMachine} (moved : Moves node n a action after next)
    (aligned : Applier.Aligned m n a) (covered : Applier.Covered n a) : Applier.Covered after next := by
  cases moved with
  | undisturbed calm =>
    refine ⟨covered.position, fun index positive inside => covered.applied index positive ?_⟩
    rw [← calm.applied]
    exact inside
  | applied advances => exact advances.covered aligned covered
  | failing => exact ⟨covered.position, covered.applied⟩
  | restarted opts store started => exact covered_start started rfl

theorem Moves.handed_subset (moved : Moves node n a action after next) : a.handed ⊆ next.handed := by
  cases moved with
  | applied advances =>
    rcases advances.handed with same | ⟨_, _, _, same⟩
    · rw [same]
      exact List.Subset.refl _
    · rw [same]
      exact List.subset_cons_self ..
  | _ => exact List.Subset.refl _

theorem Moves.restored_mem (moved : Moves node n a action after next) {snap : Raft.Snapshot}
    (present : snap ∈ next.restored) : snap ∈ a.restored ∨ a.phase = .restore snap := by
  cases moved with
  | applied advances =>
    rcases advances.restored_cases with same | ⟨found, phase, same⟩
    · exact Or.inl (same ▸ present)
    · rw [same] at present
      rcases List.mem_cons.mp present with rfl | old
      · exact Or.inr phase
      · exact Or.inl old
  | _ => exact Or.inl present

end Settling

namespace Cluster

structure Agreed (record : Raft.Record) (c : Cluster (Applier KVStateMachine)) : Prop where
  described : Raft.Described record c.raft
  settled : ∀ node ∈ c.raft.members, Settled c.raft.members record (c.raft.nodes node) (c.machines node)

theorem Bootstrapped.agreed {first : Cluster (Applier KVStateMachine)} (boot : first.Bootstrapped interleaved) :
    Agreed Raft.Record.empty first where
  described := boot.raft.described
  settled node known := by
    obtain ⟨faults, fresh⟩ := boot.empty node known
    rw [fresh]
    refine ⟨?_, nofun, nofun⟩
    rw [boot.raft.applied known]
    exact Nat.zero_le _

theorem Agreed.step {record : Raft.Record} {c after : Cluster (Applier KVStateMachine)} {action : Action}
    (agreed : Agreed record c) (taken : c.step interleaved action = some after) :
    ∃ larger, record ≤ larger ∧ Agreed larger after := by
  obtain ⟨larger, grown, described⟩ := step_described agreed.described taken
  have members := step_members taken
  refine ⟨larger, grown, described, fun node known => ?_⟩
  rw [members] at known ⊢
  refine ((step_moves taken node).settled (fun index entry below held => ?_) (agreed.settled node known)).mono grown
  have chosen := agreed.described.chosen known below held
  rw [agreed.described.chosen_index chosen]
  exact chosen

theorem Agreed.runs {record : Raft.Record} {c after : Cluster (Applier KVStateMachine)} (agreed : Agreed record c)
    (run : Runs interleaved c after) : ∃ larger, record ≤ larger ∧ Agreed larger after := by
  induction run with
  | refl => exact ⟨record, le_refl record, agreed⟩
  | tail _ moved ih =>
    obtain ⟨larger, grown, here⟩ := ih
    obtain ⟨action, _, taken⟩ := moved
    obtain ⟨largest, further, there⟩ := here.step taken
    exact ⟨largest, grown.trans further, there⟩

theorem proposed_entry {record : Raft.Record} {before next : Cluster (Applier KVStateMachine)} {node : String}
    {command : Bytes} {index term : Nat} (proposed : ((before.raft.nodes node).propose command).2.1 = .ok (index, term))
    (taken : before.step interleaved (.raft (.propose node command)) = some next) (agreed : Agreed record next) :
    entryAt (record.log term) index = some ⟨index, term, command⟩ := by
  obtain ⟨raft, moved, rfl⟩ := Option.map_eq_some_iff.mp taken
  simp only [Raft.Cluster.step] at moved
  split at moved
  · rename_i known
    cases moved
    obtain ⟨leads, current, held⟩ := Node.propose_appended proposed
    have here : Function.update before.raft.nodes node ((before.raft.nodes node).propose command).1 node =
        ((before.raft.nodes node).propose command).1 := Function.update_self ..
    rw [← here] at leads current held
    have entry : entryAt (record.log (Function.update before.raft.nodes node
        ((before.raft.nodes node).propose command).1 node).currentTerm) index = some ⟨index, term, command⟩ :=
      agreed.described.leader_entry known leads held
    rw [current] at entry
    exact entry
  · cases moved

/-- Some member was handed an entry of the index. -/
def Handed (c : Cluster (Applier KVStateMachine)) (index : Nat) : Prop :=
  ∃ maker ∈ c.raft.members, ∃ pair ∈ (c.machines maker).handed, pair.1.index = index

def Backs (c : Cluster (Applier KVStateMachine)) (index : Nat) (_ : Bytes) : Prop :=
  ∀ place, 0 < place → place ≤ index → c.Handed place

/-- Whatever is applied on a node was handed to it or came with a snapshot, and every snapshot in the cluster goes back
to members that were handed the entries it covers. -/
structure Backed (c : Cluster (Applier KVStateMachine)) : Prop where
  carries : c.raft.Carries c.Backs
  restorable : ∀ node ∈ c.raft.members, (c.raft.nodes node).kept.Restorable
  aligned : ∀ node ∈ c.raft.members,
    Applier.Aligned (Meaning.payloads _ c.Backs) (c.raft.nodes node) (c.machines node)
  covered : ∀ node ∈ c.raft.members, Applier.Covered (c.raft.nodes node) (c.machines node)
  restored : ∀ node ∈ c.raft.members, ∀ snap ∈ (c.machines node).restored, c.Backs snap.lastIncludedIndex snap.data

theorem Backed.handed {c : Cluster (Applier KVStateMachine)} (backed : Backed c) {node : String}
    (known : node ∈ c.raft.members) {index : Nat} (positive : 0 < index)
    (covers : (c.machines node).Covers index) : c.Handed index := by
  rcases covers with ⟨pair, present, same⟩ | ⟨snap, present, inside⟩
  · exact ⟨node, known, pair, present, same⟩
  · exact backed.restored node known snap present index positive inside

theorem Bootstrapped.backed {first : Cluster (Applier KVStateMachine)} (boot : first.Bootstrapped interleaved) :
    Backed first where
  carries := boot.raft.carries
  restorable _ := boot.raft.restorable
  aligned node known := by
    obtain ⟨faults, fresh⟩ := boot.empty node known
    rw [fresh]
    exact Or.inl ⟨(boot.raft.applied known).symm, trivial⟩
  covered node known := by
    obtain ⟨opts, _, _, _, _, started⟩ := boot.raft.fresh node known
    obtain ⟨faults, fresh⟩ := boot.empty node known
    rw [fresh]
    exact covered_start started rfl
  restored node known := by
    obtain ⟨faults, fresh⟩ := boot.empty node known
    rw [fresh]
    exact nofun

theorem step_backed {record : Raft.Record} {c after : Cluster (Applier KVStateMachine)} {action : Action}
    (described : Raft.Described record c.raft) (orderly : Orderly c action)
    (taken : c.step interleaved action = some after) (backed : Backed c) : Backed after := by
  have members := step_members taken
  have moved := step_moves taken
  have grown : ∀ index data, c.Backs index data → after.Backs index data := by
    intro index data backs place positive inside
    obtain ⟨maker, known, pair, present, same⟩ := backs place positive inside
    exact ⟨maker, members ▸ known, pair, (moved maker).handed_subset present, same⟩
  refine ⟨?_, ?_, ?_, ?_, ?_⟩
  · refine Raft.Cluster.Carries.mono grown ?_
    rcases step_raft taken with same | ⟨move, stepped, created⟩
    · rw [same]
      exact backed.carries
    · refine Raft.Cluster.step_carries (fun _ _ _ _ known _ _ => known) described backed.carries
        (fun node index data same _ _ place positive inside => ?_) stepped
      obtain ⟨known, _, rfl, _⟩ := created node index data same
      exact backed.handed known positive ((backed.covered node known).applied place positive inside)
  · exact fun node known => (moved node).restorable (backed.restorable node (members ▸ known))
  · intro node known
    rw [members] at known
    refine Applier.Aligned.mono (Meaning.payloads_extends _ grown) ?_
    refine (moved node).aligned (Meaning.payloads_sound _ _) (by intros; trivial) (fun same => ?_) (by intros; trivial)
      (backed.restorable node known) (backed.carries.nodes node known).pending (fun index entry committed held => ?_)
      (backed.aligned node known)
    · subst same
      exact orderly
    · exact ⟨described.chosen_index (described.chosen known committed held), trivial⟩
  · intro node known
    rw [members] at known
    exact (moved node).covered (backed.aligned node known) (backed.covered node known)
  · intro node known snap present
    rw [members] at known
    refine grown _ _ ?_
    rcases (moved node).restored_mem present with old | restoring
    · exact backed.restored node known snap old
    · have aligned := backed.aligned node known
      simp only [Applier.Aligned, restoring] at aligned
      exact aligned.2.2

theorem runs_backed {record : Raft.Record} {c after : Cluster (Applier KVStateMachine)} (agreed : Agreed record c)
    (run : RunsWhile interleaved Orderly c after) (backed : Backed c) :
    (∃ larger, record ≤ larger ∧ Agreed larger after) ∧ Backed after := by
  induction run with
  | refl => exact ⟨⟨record, le_refl record, agreed⟩, backed⟩
  | tail _ moved ih =>
    obtain ⟨⟨larger, grown, here⟩, backed⟩ := ih
    obtain ⟨action, orderly, taken⟩ := moved
    obtain ⟨largest, further, there⟩ := here.step taken
    exact ⟨⟨largest, grown.trans further, there⟩, step_backed here.described orderly taken backed⟩

/-- An acknowledged write is the entry that was applied. Let every applier take its steps in order, and let a node
propose a command and wait for its index. If some member holds an entry of the proposal's term there as committed
before the wait returns, then by its end the node has been handed the entry of this proposal, or has restored a
snapshot that goes back to a member that was; and whatever any node has been handed at that index, or holds there as
committed, is this entry. -/
theorem acknowledged_applied {first before next mid later : Cluster (Applier KVStateMachine)}
    (boot : first.Bootstrapped interleaved) (run : RunsWhile interleaved Orderly first before) {node : String}
    {command : Bytes} {index term : Nat} (proposed : ((before.raft.nodes node).propose command).2.1 = .ok (index, term))
    (appended : before.step interleaved (.raft (.propose node command)) = some next)
    (waiting : RunsWhile interleaved Orderly next mid) {holder : String} (member : holder ∈ mid.raft.members)
    (committed : index ≤ (mid.raft.nodes holder).commitIndex)
    (standing : (mid.raft.nodes holder).log.termAt index = some term) (rest : RunsWhile interleaved Orderly mid later)
    (caller : node ∈ later.raft.members) (returned : waitApplied (later.raft.nodes node) index = true) :
    ((∃ position, (⟨index, term, command⟩, position) ∈ (later.machines node).handed) ∨
      ∃ snap ∈ (later.machines node).restored, index ≤ snap.lastIncludedIndex ∧
        ∃ maker ∈ later.raft.members, ∃ position, (⟨index, term, command⟩, position) ∈ (later.machines maker).handed) ∧
    ∀ other ∈ later.raft.members,
      (∀ entry position, (entry, position) ∈ (later.machines other).handed → entry.index = index →
        entry = ⟨index, term, command⟩) ∧
      ∀ entry, index ≤ (later.raft.nodes other).commitIndex →
        (later.raft.nodes other).log.entryAt index = some entry → entry = ⟨index, term, command⟩ := by
  obtain ⟨⟨_, _, agreedBefore⟩, backedBefore⟩ := runs_backed boot.agreed run boot.backed
  obtain ⟨_, _, agreedNext⟩ := agreedBefore.step appended
  have backedNext : Backed next := step_backed agreedBefore.described (by trivial) appended backedBefore
  obtain ⟨⟨middle, grownMiddle, agreedMiddle⟩, backedMiddle⟩ := runs_backed agreedNext waiting backedNext
  obtain ⟨⟨record, grown, agreed⟩, backed⟩ := runs_backed agreedMiddle rest backedMiddle
  -- The proposal fixed the entry of its term's log, and the holder's log shows that this index was agreed on.
  have entry := entryAt_grown (grownMiddle.log term) (proposed_entry proposed appended agreedNext)
  have positive : 0 < index := by
    by_contra zero
    rw [Nat.eq_zero_of_not_pos zero] at entry
    cases entry
  have anchored := agreedMiddle.described.committed_anchored member committed standing
  have chosen := (anchored.chosen agreedMiddle.described.sound positive entry).mono grown
  rw [← rest.members] at chosen
  have unique : ∀ found, History.Chosen later.raft.members record index found → found = ⟨index, term, command⟩ :=
    fun found other => agreed.described.sound.chosen_unique other chosen
  have handed : ∀ other ∈ later.raft.members, ∀ found position, (found, position) ∈ (later.machines other).handed →
      found.index = index → found = ⟨index, term, command⟩ := by
    intro other known found position present same
    have settled := (agreed.settled other known).handed found position present
    rw [same] at settled
    exact unique found settled
  refine ⟨?_, fun other known => ⟨handed other known, fun found below held => ?_⟩⟩
  · rcases (backed.covered node caller).applied index positive (of_decide_eq_true returned) with
      ⟨⟨found, position⟩, present, same⟩ | ⟨snap, present, inside⟩
    · exact Or.inl ⟨position, handed node caller found position present same ▸ present⟩
    · obtain ⟨maker, known, ⟨found, position⟩, there, same⟩ :=
        backed.restored node caller snap present index positive inside
      exact Or.inr ⟨snap, present, inside, maker, known, position, handed maker known found position there same ▸ there⟩
  · exact unique found (agreed.described.chosen known below held)

def elected : List Action := [.raft (.tick "a"), .raft (.deliver 1), .raft (.deliver 2)]

def accepted : List Action := [.raft (.deliver 6), .raft (.deliver 7)]

theorem acknowledged_applied_trio :
    ∃ before next mid later, (boot interleaved ["a", "b", "c"] 0).execWhile interleaved Orderly elected = some before ∧
      ((before.raft.nodes "a").propose (write 1 1)).2.1 = .ok (1, 1) ∧
      before.step interleaved (.raft (.propose "a" (write 1 1))) = some next ∧
      next.execWhile interleaved Orderly accepted = some mid ∧ (mid.raft.nodes "a").log.termAt 1 = some 1 ∧
      mid.execWhile interleaved Orderly (List.replicate 5 (.apply "a")) = some later ∧
      waitApplied (later.raft.nodes "a") 1 = true ∧ (later.machines "a").restored = [] ∧
      ∃ position, (⟨1, 1, write 1 1⟩, position) ∈ (later.machines "a").handed := by
  have computed : (((boot interleaved ["a", "b", "c"] 0).execWhile interleaved Orderly elected).bind fun before =>
      (before.step interleaved (.raft (.propose "a" (write 1 1)))).bind fun next =>
        (next.execWhile interleaved Orderly accepted).bind fun mid =>
          (mid.execWhile interleaved Orderly (List.replicate 5 (.apply "a"))).map fun later =>
            decide (((before.raft.nodes "a").propose (write 1 1)).2.1 = .ok (1, 1) ∧
              1 ≤ (mid.raft.nodes "a").commitIndex ∧ (mid.raft.nodes "a").log.termAt 1 = some 1 ∧
              waitApplied (later.raft.nodes "a") 1 = true ∧ (later.machines "a").restored = [])) = some true := by
    decide
  simp only [Option.bind_eq_some_iff, Option.map_eq_some_iff, decide_eq_true_eq] at computed
  obtain ⟨before, start, next, appended, mid, waiting, later, rest, proposed, committed, standing, returned,
    unrestored⟩ := computed
  have middle : mid.raft.members = ["a", "b", "c"] :=
    (execWhile_runs waiting).members.trans ((step_members appended).trans (execWhile_runs start).members)
  have final : later.raft.members = ["a", "b", "c"] := (execWhile_runs rest).members.trans middle
  have own := acknowledged_applied (boot_bootstrapped interleaved 0 (by decide) (by decide)) (execWhile_runs start)
    proposed appended (execWhile_runs waiting) (by rw [middle]; decide) committed standing (execWhile_runs rest)
    (by rw [final]; decide) returned
  refine ⟨before, next, mid, later, start, proposed, appended, waiting, standing, rest, returned, unrestored, ?_⟩
  rcases own.1 with handed | ⟨snap, present, _⟩
  · exact handed
  · rw [unrestored] at present
    cases present

/-- A second node is elected by the third before anything is replicated, commits a write of its own at the
same index and tells the first, whose own entry is gone. -/
def replaced : List Action :=
  [.raft (.tick "b"), .raft (.tick "b"), .raft (.deliver 10), .raft (.deliver 11), .raft (.propose "b" (write 9 9)),
    .raft (.deliver 15), .raft (.deliver 16), .raft (.tick "b"), .raft (.deliver 17)]

theorem acknowledged_other :
    ∃ before next later, (boot interleaved ["a", "b", "c"] 0).exec interleaved elected = some before ∧
      ((before.raft.nodes "a").propose (write 1 1)).2.1 = .ok (1, 1) ∧
      before.step interleaved (.raft (.propose "a" (write 1 1))) = some next ∧
      next.exec interleaved (replaced ++ List.replicate 5 (.apply "a")) = some later ∧
      waitApplied (later.raft.nodes "a") 1 = true ∧
      (later.machines "a").handed.map Prod.fst = [⟨1, 2, write 9 9⟩] := by
  have computed : (((boot interleaved ["a", "b", "c"] 0).exec interleaved elected).bind fun before =>
      (before.step interleaved (.raft (.propose "a" (write 1 1)))).bind fun next =>
        (next.exec interleaved (replaced ++ List.replicate 5 (.apply "a"))).map fun later =>
          decide (((before.raft.nodes "a").propose (write 1 1)).2.1 = .ok (1, 1) ∧
            waitApplied (later.raft.nodes "a") 1 = true ∧
            (later.machines "a").handed.map Prod.fst = [⟨1, 2, write 9 9⟩])) = some true := by
    decide
  simp only [Option.bind_eq_some_iff, Option.map_eq_some_iff, decide_eq_true_eq] at computed
  obtain ⟨before, start, next, appended, later, rest, proposed, returned, handed⟩ := computed
  exact ⟨before, next, later, start, proposed, appended, rest, returned, handed⟩

end Cluster

end ForgeDB.DBNode
