import ForgeDB.Raft.Methods

/-!
Safety over whole runs. Every step of the cluster lets the record grow so that it describes the
cluster again; what the record says about leaders and committed positions then holds of every
reachable cluster.
-/

namespace ForgeDB.Raft

open Consensus

def Record.empty : Record where
  leader _ := none
  start _ := []
  log _ := []
  committed _ := 0
  votes _ _ := none
  ticket _ _ := (0, 0)
  acked _ _ := 0

theorem Record.empty_sound (members : List String) : History.Sound members Record.empty where
  sorted _ := List.Pairwise.nil
  positive _ _ inside := by cases inside
  owner _ _ _ present := by cases present
  started _ := List.prefix_rfl
  inherited _ _ inside := by cases inside
  own _ _ _ present := by cases present
  absent _ _ := ⟨rfl, rfl, fun _ => rfl⟩
  ackedLe _ _ := Nat.le_refl _
  elected _ _ known := by cases known

theorem Cluster.Bootstrapped.described {c : Cluster} (first : c.Bootstrapped) : Described Record.empty c where
  named := first.named
  sound := Record.empty_sound c.members
  numbered _ _ _ present := by cases present
  packets packet sent := by rw [first.quiet] at sent; cases sent
  nodes node known := by
    obtain ⟨opts, id, peers, noState, noSnapshot, started⟩ := first.fresh node known
    obtain ⟨suffix, loaded, core⟩ := newNode_core started
    rw [noState, noSnapshot] at core
    rw [noState, noSnapshot] at loaded
    simp only [loadedSuffix, Option.elim_none, Except.ok.injEq] at loaded core
    subst loaded
    have sameId : (c.nodes node).id = node := (congrArg Core.id core).trans id
    refine ⟨sameId, ?_⟩
    rw [core]
    exact
    { distinct := first.distinct
      member := by rw [id]; exact known
      named := by
        rw [id]
        rintro rfl
        exact first.named known
      others := by rw [id]; exact peers
      durable := ⟨[], rfl, fun entry inside => by cases inside⟩
      unsaved := fun _ => ⟨rfl, rfl⟩
      saved := fun snap present => by cases present
      segment := fun slot entry present => by cases present
      anchored := Or.inl ⟨rfl, rfl⟩
      bounded := fun entry inside => by cases inside
      settled := settled_zero
      promise := fun earlier bound positive accepted _ => by
        simp only [Record.empty] at accepted
        omega
      accounted := fun term accepted => by
        simp only [Record.empty] at accepted
        omega
      unvoted := fun _ _ => rfl
      voted := rfl
      unled := fun term known => by cases known
      stands := fun leading => absurd rfl leading
      candidate := fun standing => by cases standing
      leader := fun leading => by cases leading }

theorem Described.move {record : Record} {c after : Cluster} (described : Described record c) {node : String}
    (known : node ∈ c.members) {n : Node} {said : Record → Prop}
    (moves : Evolves c.members record (c.nodes node) n said) {packets : List Packet}
    (justified : ∀ larger, record ≤ larger → said larger → ∀ packet ∈ packets, PacketOk c.members larger packet)
    (members : after.members = c.members) (nodes : after.nodes = Function.update c.nodes node n)
    (network : after.network = c.network ++ packets) :
    ∃ larger, record ≤ larger ∧ Described larger after := by
  obtain ⟨larger, evolution, ok, id, holds⟩ := moves
  have self := (described.nodes node known).1
  rw [self] at evolution id
  refine ⟨larger, evolution.grown, ?_⟩
  exact
  { named := by rw [members]; exact described.named
    sound := by rw [members]; exact evolution.sound
    numbered := evolution.numbered
    nodes := by
      rw [members]
      intro other inside
      rw [nodes]
      by_cases same : other = node
      · subst same
        rw [Function.update_self]
        exact ⟨id, ok⟩
      · rw [Function.update_of_ne same]
        obtain ⟨otherId, otherOk⟩ := described.nodes other inside
        have coreId : (c.nodes other).core.id = other := otherId
        exact ⟨otherId, otherOk.mono described.sound evolution.grown
          (by rw [coreId]; exact evolution.spared other same)⟩
    packets := by
      rw [members, network]
      intro packet sent
      rcases List.mem_append.mp sent with old | new
      · exact (described.packets packet old).mono described.sound evolution.grown
      · exact justified larger evolution.grown holds packet new }

theorem requests_ok {members : List String} {record : Record} {src : String} {id : Nat} {calls : List Call}
    (ok : CallsOk members src calls record) :
    ∀ packet ∈ Cluster.requests src id calls, PacketOk members record packet := by
  intro packet sent
  simp only [Cluster.requests, List.mem_mapIdx] at sent
  obtain ⟨slot, inside, rfl⟩ := sent
  exact ok _ (List.getElem_mem inside)

theorem Described.quiet {record : Record} {before after : Cluster} (described : Described record before) {node : String}
    {n : Node} (known : node ∈ before.members)
    (moves : Evolves before.members record (before.nodes node) n (fun _ => True))
    (members : after.members = before.members)
    (nodes : after.nodes = Function.update before.nodes node n) (network : after.network = before.network) :
    ∃ larger, record ≤ larger ∧ Described larger after := by
  have none : ∀ larger, record ≤ larger → True → ∀ packet ∈ ([] : List Packet), PacketOk before.members larger packet :=
    fun _ _ _ packet sent => absurd sent List.not_mem_nil
  exact described.move known moves none members nodes (by rw [network, List.append_nil])

theorem Described.loud {record : Record} {before after : Cluster} (described : Described record before) {node : String}
    {n : Node} {calls : List Call} (known : node ∈ before.members)
    (moves : Evolves before.members record (before.nodes node) n (CallsOk before.members node calls))
    (members : after.members = before.members) (nodes : after.nodes = Function.update before.nodes node n)
    (network : ∃ id, after.network = before.network ++ Cluster.requests node id calls) :
    ∃ larger, record ≤ larger ∧ Described larger after := by
  obtain ⟨id, network⟩ := network
  exact described.move known moves (fun _ _ ok => requests_ok ok) members nodes network

namespace Cluster

theorem step_described (record : Record) (before after : Cluster) (described : Described record before)
    (moved : Steps before after) : ∃ larger, record ≤ larger ∧ Described larger after := by
  obtain ⟨action, taken⟩ := moved
  have sound := described.sound
  have numbered := described.numbered
  cases step_taken taken with
  | tick known =>
    obtain ⟨id, ok⟩ := described.nodes _ known
    have moves := Node.tick_ok sound numbered ok
    rw [id] at moves
    exact described.loud known moves rfl rfl ⟨_, rfl⟩
  | @propose _ command known =>
    obtain ⟨id, ok⟩ := described.nodes _ known
    have moves := Node.propose_ok sound numbered ok command
    rw [id] at moves
    exact described.loud known moves rfl rfl ⟨_, rfl⟩
  | @createSnapshot _ index data known =>
    exact described.quiet known (Node.createSnapshot_ok sound numbered (described.nodes _ known).2 index data) rfl
      rfl rfl
  | @confirmSnapshotRestored _ index known =>
    have ok := (described.nodes _ known).2
    exact described.quiet known ((Evolves.still sound numbered ok rfl trivial).recore
      (Node.confirmSnapshotRestored_core _ index)) rfl rfl rfl
  | @markApplied _ index known =>
    have ok := (described.nodes _ known).2
    exact described.quiet known ((Evolves.still sound numbered ok rfl trivial).recore
      (Node.markApplied_core _ index)) rfl rfl rfl
  | request found =>
    have justified := described.packets _ (List.mem_of_getElem? found)
    have known := RequestOk.peer_known justified
    obtain ⟨sameId, ok⟩ := described.nodes _ known
    have moves := Node.serve_ok sound numbered ok described.named sameId.symm justified
    refine described.move known moves (fun larger grown holds packet new => ?_) rfl rfl rfl
    rw [List.mem_singleton] at new
    subst new
    exact ⟨RequestOk.mono grown justified, holds⟩
  | reply found =>
    have justified := described.packets _ (List.mem_of_getElem? found)
    have known := RequestOk.src_known justified.1
    obtain ⟨sameId, ok⟩ := described.nodes _ known
    have moves := Node.resume_ok sound numbered ok (by rw [sameId]; exact justified.1) justified.2
    rw [sameId] at moves
    exact described.loud known moves rfl rfl ⟨_, rfl⟩
  | readIndex known started =>
    obtain ⟨sameId, ok⟩ := described.nodes _ known
    have calls := Node.readIndexStart_ok ok started
    rw [sameId] at calls
    refine described.loud known (Evolves.still sound numbered ok rfl calls) rfl ?_ ⟨_, rfl⟩
    rw [Function.update_eq_self]
    rfl
  | dropCall => exact ⟨record, le_refl record, described.named, sound, numbered, described.nodes, described.packets⟩
  | returnRead settled =>
    exact ⟨record, le_refl record, described.named, sound, numbered, described.nodes, described.packets⟩
  | fault known =>
    have ok := (described.nodes _ known).2
    refine described.quiet known ?_ rfl rfl rfl
    exact Evolves.still sound numbered ok rfl trivial
  | restart known started =>
    obtain ⟨sameId, ok⟩ := described.nodes _ known
    exact described.quiet known (restart_ok sound numbered ok sameId.symm rfl rfl started) rfl rfl rfl

theorem Reachable.described {c : Cluster} (reachable : Reachable c) : ∃ record, Described record c := by
  obtain ⟨first, boot, run⟩ := reachable
  obtain ⟨record, _, described⟩ := recorded_run step_described run _ boot.described
  exact ⟨record, described⟩

theorem Runs.described {first second : Cluster} {record : Record} (described : Described record first)
    (run : Runs first second) : ∃ larger, record ≤ larger ∧ Described larger second :=
  recorded_run step_described run record described

end Cluster

end ForgeDB.Raft
