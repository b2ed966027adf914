import ForgeDB.Raft.Agreement
import ForgeDB.Raft.Handover
import ForgeDB.Raft.Outgoing

/-!
Where entries come from and in which order they stand. Every entry of every log was accepted from a
caller, once; and a write that is committed before another is accepted stands before it.
-/

namespace ForgeDB.Raft

open Consensus

namespace Log

theorem entryAt_of_drop {l : Log} {base term : Nat} (above : l.sentinel.index ≤ base) {index : Nat} {entry : LogEntry}
    (held : (⟨⟨base, term, []⟩, l.rest.drop (base - l.sentinel.index)⟩ : Log).entryAt index = some entry) :
    l.entryAt index = some entry := by
  have kept : base < index := by
    obtain ⟨slot, place, _⟩ := entryAt_cases held
    rw [place]
    exact Nat.lt_succ_of_le (Nat.le_add_right _ _)
  rwa [entryAt_drop above kept] at held

theorem entryAt_appendAfter {l : Log} {prevIndex term : Nat} {newEntries : List LogEntry}
    (found : l.termAt prevIndex = some term) {index : Nat} {entry : LogEntry}
    (held : (l.appendAfter prevIndex newEntries).1.entryAt index = some entry) :
    l.entryAt index = some entry ∨ ∃ slot sent, index = prevIndex + slot + 1 ∧ newEntries[slot]? = some sent ∧
      sent.term = entry.term ∧ sent.command = entry.command := by
  obtain ⟨above, below⟩ := termAt_bounds found
  rw [lastIndex_eq] at below
  obtain ⟨start, rfl⟩ := Nat.exists_eq_add_of_le above
  unfold appendAfter at held
  rcases l.appendAfterFrom_spec start newEntries (by omega) with
    ⟨same, _⟩ | ⟨kept, _, _, _, _, reach, same⟩
  · rw [same] at held
    exact Or.inl held
  · rw [same] at held
    obtain ⟨slot, rfl, present⟩ := entryAt_cases held
    have length : (l.rest.take (start + kept)).length = start + kept := List.length_take_of_le reach
    rcases Nat.lt_or_ge slot (start + kept) with old | new
    · rw [List.getElem?_append_left (by omega), List.getElem?_take_of_lt old] at present
      exact Or.inl ((l.entryAt_rest slot).trans present)
    · rw [List.getElem?_append_right (by omega), length, renumber_getElem?, List.getElem?_drop,
        Option.map_eq_some_iff] at present
      obtain ⟨sent, taken, rfl⟩ := present
      exact Or.inr ⟨kept + (slot - (start + kept)), sent, by dsimp only; omega, taken, rfl, rfl⟩

end Log

namespace Node

theorem serve_entry {n : Node} {call : Call} {index : Nat} {entry : LogEntry}
    (held : (n.serve call).1.log.entryAt index = some entry) :
    n.log.entryAt index = some entry ∨ ∃ peer args slot sent, call = .appendEntries peer args ∧
      index = args.prevLogIndex + slot + 1 ∧ args.entries[slot]? = some sent ∧ sent.term = entry.term ∧
      sent.command = entry.command := by
  cases call with
  | requestVote peer args =>
    rw [show (n.serve (.requestVote peer args)).1.log = n.log from
      congrArg Kept.log (n.handleRequestVote_kept args)] at held
    exact Or.inl held
  | appendEntries peer args =>
    have observed : (n.observeTerm args.term).1.log = n.log := congrArg Kept.log (n.observeTerm_kept args.term)
    rcases n.handleAppendEntries_core args with ⟨_, same | same⟩ | ⟨_, found, same⟩
    · rw [show (n.serve (.appendEntries peer args)).1.log = n.log from (congrArg Core.log same).trans observed] at held
      exact Or.inl held
    · rw [show (n.serve (.appendEntries peer args)).1.log = n.log from (congrArg Core.log same).trans observed] at held
      exact Or.inl held
    · have log : (n.serve (.appendEntries peer args)).1.log =
          (n.log.appendAfter args.prevLogIndex args.entries).1 := by
        rw [← observed]
        exact congrArg Core.log same
      rw [log] at held
      rw [observed] at found
      rcases Log.entryAt_appendAfter found held with old | ⟨slot, sent, place, present, term, command⟩
      · exact Or.inl old
      · exact Or.inr ⟨peer, args, slot, sent, rfl, place, present, term, command⟩
  | installSnapshot peer snap args =>
    left
    rcases (n.handleInstallSnapshot_handled args).log with same | ⟨above, same⟩
    · rwa [show (n.serve (.installSnapshot peer snap args)).1.log = n.log from same] at held
    · rw [show (n.serve (.installSnapshot peer snap args)).1.log = _ from same, Log.installSnapshotBoundary] at held
      split at held
      · simp only [Log.drop_entries_eq] at held
        exact Log.entryAt_of_drop above.le held
      · obtain ⟨slot, _, present⟩ := Log.entryAt_cases held
        cases present

theorem propose_entry {n : Node} {command : Command} {index : Nat} {entry : LogEntry}
    (held : (n.propose command).1.log.entryAt index = some entry) :
    n.log.entryAt index = some entry ∨
      (n.propose command).2.1 = .ok (index, entry.term) ∧ entry.command = command := by
  rcases n.propose_cases command with ⟨_, _, kept⟩ | ⟨_, place, _, _, kept⟩
  · rw [show (n.propose command).1.log = n.log from congrArg Kept.log kept] at held
    exact Or.inl held
  · rw [show (n.propose command).1.log = _ from congrArg Kept.log kept, Log.entryAt_append] at held
    split at held
    · rename_i last
      cases held
      exact Or.inr ⟨last ▸ place, rfl⟩
    · exact Or.inl held

end Node

namespace Cluster

structure Sourced (scope : String → Prop) (made : Nat → Nat → Command → Prop) (c : Cluster) : Prop where
  held : ∀ node ∈ c.members, scope node → ∀ index entry, (c.nodes node).log.entryAt index = some entry →
    made index entry.term entry.command
  sent : ∀ id src peer args, Packet.request id src (.appendEntries peer args) ∈ c.network → scope src →
    ∀ slot entry, args.entries[slot]? = some entry → made (args.prevLogIndex + slot + 1) entry.term entry.command

theorem Sourced.mono {scope : String → Prop} {made more : Nat → Nat → Command → Prop} {c : Cluster}
    (weaker : ∀ index term command, made index term command → more index term command)
    (sourced : Sourced scope made c) : Sourced scope more c where
  held node known inside index entry held := weaker _ _ _ (sourced.held node known inside index entry held)
  sent id src peer args sent inside slot entry present :=
    weaker _ _ _ (sourced.sent id src peer args sent inside slot entry present)

def Makes (c : Cluster) (action : Action) (node : String) (index term : Nat) (command : Command) : Prop :=
  action = .propose node command ∧ ((c.nodes node).propose command).2.1 = .ok (index, term)

def heard (c : Cluster) : Action → Option Packet
  | .deliver slot => c.network[slot]?
  | _ => none

section

variable {c after : Cluster} {action : Action} {record : Record} {scope : String → Prop}
  {made : Nat → Nat → Command → Prop}

theorem mem_of_heard {packet : Packet} (delivered : packet ∈ (c.heard action).toList) : packet ∈ c.network := by
  cases action with
  | deliver slot => exact List.mem_of_getElem? (Option.mem_toList.mp delivered)
  | _ => cases delivered

theorem step_heard (taken : c.step action = some after) (node : String) :
    after.nodes node = c.nodes node ∨
      Node.Executes (c.heard action).toList node action (c.nodes node) (after.nodes node) ∨
      ∃ opts : Options, action = .restart node opts ∧
        newNode { opts with id := node, peers := (c.nodes node).peers, persister := (c.nodes node).persister } =
          .ok (after.nodes node) := by
  by_cases delivery : ∃ slot, action = .deliver slot
  · obtain ⟨slot, rfl⟩ := delivery
    cases step_taken taken with
    | @request _ id src call found =>
      by_cases callee : node = call.peer
      · right
        left
        simp only [deliver, setNode, callee, Function.update_self]
        exact .serve _ slot (Option.mem_toList.mpr found) rfl
      · exact Or.inl (Function.update_of_ne callee _ _)
    | @reply _ id src call reply found =>
      by_cases caller : node = src
      · right
        left
        simp only [deliver, setNode, post, answerReads, caller, Function.update_self]
        exact .resume _ slot (Option.mem_toList.mpr found)
      · exact Or.inl (Function.update_of_ne caller _ _)
  · rcases (step_nodes taken).2 node with still | moved | restarted
    · exact Or.inl still
    · refine Or.inr (Or.inl ?_)
      generalize after.nodes node = n at moved
      cases moved with
      | serve _ slot | resume _ slot => exact absurd ⟨slot, rfl⟩ delivery
      | _ => constructor
    · exact Or.inr (Or.inr restarted)

theorem Sourced.step_held (sourced : Sourced scope made c) (described : Described record c)
    (taken : c.step action = some after)
    (closed : ∀ id src call, c.heard action = some (.request id src call) → scope call.peer → scope src)
    {node : String} (known : node ∈ c.members) (within : scope node) {index : Nat} {entry : LogEntry}
    (held : (after.nodes node).log.entryAt index = some entry) :
    made index entry.term entry.command ∨ c.Makes action node index entry.term entry.command := by
  have same : ∀ n : Node, n.log = (c.nodes node).log → n.log.entryAt index = some entry →
      made index entry.term entry.command ∨ c.Makes action node index entry.term entry.command :=
    fun n log there => Or.inl (sourced.held node known within index entry (log ▸ there))
  rcases step_heard taken node with still | moved | ⟨opts, rfl, started⟩
  · exact same _ (congrArg Node.log still) held
  · generalize after.nodes node = n at moved held
    cases moved with
    | tick => exact same _ (congrArg Kept.log (Node.tick_kept _)) held
    | propose _ command =>
      rcases Node.propose_entry held with old | ⟨accepted, rfl⟩
      · exact Or.inl (sourced.held node known within index entry old)
      · exact Or.inr ⟨rfl, accepted⟩
    | createSnapshot _ place data =>
      rcases (c.nodes node).createSnapshot_kept place data with kept | ⟨term, above, _, _, kept | kept⟩
      · exact same _ (congrArg Kept.log kept) held
      · exact same _ (congrArg Kept.log kept) held
      · rw [show ((c.nodes node).createSnapshot place data).1.log = _ from congrArg Kept.log kept] at held
        exact Or.inl (sourced.held node known within index entry (Log.entryAt_of_drop above.le held))
    | confirmSnapshotRestored _ place =>
      exact same _ (congrArg Core.log ((c.nodes node).confirmSnapshotRestored_core place)) held
    | markApplied _ place => exact same _ (congrArg Core.log ((c.nodes node).markApplied_core place)) held
    | @serve _ _ id src call sent callee =>
      rcases Node.serve_entry held with old | ⟨peer, args, slot, found, rfl, rfl, present, term, command⟩
      · exact Or.inl (sourced.held node known within index entry old)
      · rw [← term, ← command]
        have sender := closed id src _ (Option.mem_toList.mp sent) (callee ▸ within)
        exact Or.inl (sourced.sent id src peer args (mem_of_heard sent) sender slot found present)
    | @resume _ _ _ call reply => exact same _ (congrArg Kept.log (Node.resume_kept _ call reply)) held
    | fault => exact same _ rfl held
  · have log := restart_log described.numbered (described.nodes node known).2 rfl started
    have above : (c.nodes node).log.sentinel.index ≤
        (c.nodes node).persister.snapshot.elim 0 Snapshot.lastIncludedIndex :=
      (described.nodes node known).2.base_le_saved
    rw [log] at held
    exact Or.inl (sourced.held node known within index entry (Log.entryAt_of_drop above held))

theorem Sourced.step (sourced : Sourced scope made c) (described : Described record c)
    (taken : c.step action = some after)
    (closed : ∀ id src call, c.heard action = some (.request id src call) → scope call.peer → scope src) :
    Sourced scope (fun index term command => made index term command ∨
      ∃ node, scope node ∧ c.Makes action node index term command) after := by
  have members := (step_nodes taken).1
  have holds : ∀ node ∈ c.members, scope node → ∀ index entry,
      (after.nodes node).log.entryAt index = some entry → made index entry.term entry.command ∨
        ∃ node, scope node ∧ c.Makes action node index entry.term entry.command :=
    fun node known within index entry held =>
      (sourced.step_held described taken closed known within held).imp_right fun makes => ⟨node, within, makes⟩
  refine ⟨fun node known => holds node (members ▸ known), fun id src peer args sent within slot entry present => ?_⟩
  by_cases old : Packet.request id src (.appendEntries peer args) ∈ c.network
  · exact Or.inl (sourced.sent id src peer args old within slot entry present)
  · -- A new call carries what its sender holds after the step.
    obtain ⟨larger, _, describedAfter⟩ := step_described record c after described ⟨action, taken⟩
    have request : RequestOk after.members larger src (.appendEntries peer args) := describedAfter.packets _ sent
    have replicates := step_replicates taken sent old
    obtain ⟨previous, entries⟩ := describedAfter.replicates_log request.src_known replicates
    have above := (Log.termAt_bounds previous).1
    rw [entries, List.getElem?_drop] at present
    have place : args.prevLogIndex + slot + 1 = (after.nodes src).log.sentinel.index +
        (args.prevLogIndex - (after.nodes src).log.sentinel.index + slot) + 1 := by omega
    have held : (after.nodes src).log.entryAt (args.prevLogIndex + slot + 1) = some entry := by
      rw [place, Log.entryAt_rest]
      exact present
    exact holds src (members ▸ request.src_known) within _ _ held

end

/-- On its `turn` the run makes a proposal that its node accepts at this index and term. -/
def Accepts (first : Cluster) (actions : List Action) (turn index term : Nat) (command : Command) : Prop :=
  ∃ c action node, first.exec (actions.take turn) = some c ∧ actions[turn]? = some action ∧
    c.Makes action node index term command

theorem exec_append (c : Cluster) (left right : List Action) :
    c.exec (left ++ right) = (c.exec left).bind fun middle => middle.exec right := by
  induction left generalizing c with
  | nil => rfl
  | cons action left ih =>
    simp only [List.cons_append, exec, Option.bind_assoc]
    exact congrArg _ (funext fun next => ih next)

theorem exec_turn {first c : Cluster} {actions : List Action} (done : first.exec actions = some c) {turn : Nat}
    {action : Action} (present : actions[turn]? = some action) :
    ∃ mid next, first.exec (actions.take turn) = some mid ∧ mid.step action = some next ∧
      next.exec (actions.drop (turn + 1)) = some c := by
  obtain ⟨inside, rfl⟩ := List.getElem?_eq_some_iff.mp present
  have split : actions = actions.take turn ++ actions[turn] :: actions.drop (turn + 1) := by
    rw [← List.drop_eq_getElem_cons inside, List.take_append_drop]
  rw [split, exec_append, Option.bind_eq_some_iff] at done
  obtain ⟨mid, before, rest⟩ := done
  simp only [exec, Option.bind_eq_some_iff] at rest
  obtain ⟨next, taken, rest⟩ := rest
  exact ⟨mid, next, before, taken, rest⟩

theorem exec_sourced {first c : Cluster} (boot : first.Bootstrapped) {actions : List Action}
    (done : first.exec actions = some c) :
    Sourced (fun _ => True) (fun index term command => ∃ turn, first.Accepts actions turn index term command) c := by
  induction actions using List.reverseRecOn generalizing c with
  | nil =>
    cases done
    refine ⟨fun node known _ index entry held => ?_, fun id src peer args sent => ?_⟩
    · rw [(boot.log known).2] at held
      obtain ⟨slot, _, present⟩ := Log.entryAt_cases held
      cases present
    · rw [boot.quiet] at sent
      cases sent
  | append_singleton actions action ih =>
    rw [exec_append, Option.bind_eq_some_iff] at done
    obtain ⟨mid, before, last⟩ := done
    simp only [exec, Option.bind_eq_some_iff, Option.some.injEq] at last
    obtain ⟨next, taken, rfl⟩ := last
    obtain ⟨record, _, described⟩ := (exec_runs before).described boot.described
    have step := (ih before).step described taken fun _ _ _ _ _ => trivial
    refine step.mono ?_
    rintro index term command (⟨turn, c, old, node, ran, present, makes⟩ | ⟨node, _, makes⟩)
    · have inside := (List.getElem?_eq_some_iff.mp present).1
      refine ⟨turn, c, old, node, ?_, ?_, makes⟩
      · rwa [List.take_append_of_le_length inside.le]
      · rwa [List.getElem?_append_left inside]
    · refine ⟨actions.length, mid, action, node, ?_, List.getElem?_concat_length, makes⟩
      rwa [List.take_left' rfl]

theorem Makes.extends {record : Record} {c : Cluster} {action : Action} {node : String} {index term : Nat}
    {command : Command} (described : Described record c) (makes : c.Makes action node index term command)
    {after : Cluster} (taken : c.step action = some after) {larger : Record} (describedAfter : Described larger after) :
    (record.log term).length < index ∧ index ≤ (larger.log term).length := by
  obtain ⟨rfl, accepted⟩ := makes
  cases step_taken taken with
  | propose known =>
    rcases (c.nodes node).propose_cases command with ⟨error, failed, _⟩ | ⟨leads, place, role, current, kept⟩
    · rw [failed] at accepted
      cases accepted
    rw [place, Except.ok.injEq, Prod.mk.injEq] at accepted
    obtain ⟨rfl, rfl⟩ := accepted
    constructor
    · have length : (record.log (c.nodes node).currentTerm).length = (c.nodes node).log.lastIndex :=
        ((described.nodes node known).2.leader leads).length_eq
      omega
    · have here : ((c.setNode node ((c.nodes node).propose command).1).post node
          ((c.nodes node).propose command).2.2).nodes node = ((c.nodes node).propose command).1 :=
        Function.update_self ..
      obtain ⟨leadsAfter, currentAfter, heldAfter⟩ := Node.propose_appended place
      rw [← here] at leadsAfter currentAfter heldAfter
      have entry := describedAfter.leader_entry known leadsAfter heldAfter
      rw [currentAfter] at entry
      exact termAt_le_length (termAt_of_entryAt entry)

theorem Accepts.turn_le {first c : Cluster} (boot : first.Bootstrapped) {actions : List Action}
    (done : first.exec actions = some c) {turn other index term : Nat} {command second : Command}
    (earlier : first.Accepts actions turn index term command) (later : first.Accepts actions other index term second) :
    other ≤ turn := by
  by_contra after
  obtain ⟨mid, action, _, ran, present, makes⟩ := earlier
  obtain ⟨last, repeated, _, ranLast, presentLast, makesLast⟩ := later
  -- The run up to the second turn goes through the first.
  have within : (actions.take other)[turn]? = some action := by
    rw [List.getElem?_take_of_lt (by omega)]
    exact present
  obtain ⟨sameMid, next, sameRan, taken, rest⟩ := exec_turn ranLast within
  rw [List.take_take, Nat.min_eq_left (by omega), ran, Option.some.injEq] at sameRan
  subst sameRan
  obtain ⟨_, afterLast, ranAgain, takenLast, _⟩ := exec_turn done presentLast
  rw [ranLast, Option.some.injEq] at ranAgain
  subst ranAgain
  obtain ⟨record, _, described⟩ := (exec_runs ran).described boot.described
  obtain ⟨larger, _, describedNext⟩ := step_described record mid next described ⟨action, taken⟩
  obtain ⟨largest, grown, describedLast⟩ := (exec_runs rest).described describedNext
  obtain ⟨final, _, describedFinal⟩ := step_described largest last afterLast describedLast ⟨repeated, takenLast⟩
  have reached := (makes.extends described taken describedNext).2
  have free := (makesLast.extends describedLast takenLast describedFinal).1
  have longer := (grown.log term).length_le
  omega

/-- Every entry of every log was accepted from a caller on exactly one turn of the run. -/
theorem entry_accepted_once {first c : Cluster} (boot : first.Bootstrapped) {actions : List Action}
    (done : first.exec actions = some c) {node : String} (known : node ∈ c.members) {index : Nat} {entry : LogEntry}
    (held : (c.nodes node).log.entryAt index = some entry) :
    ∃! turn, first.Accepts actions turn index entry.term entry.command := by
  obtain ⟨turn, accepts⟩ := (exec_sourced boot done).held node known trivial index entry held
  refine ⟨turn, accepts, fun other again => ?_⟩
  exact Nat.le_antisymm (accepts.turn_le boot done again) (again.turn_le boot done accepts)

/-- The leader of `commitScript` accepts a second command and commits it too. -/
def secondScript : List Action :=
  [.propose "a" [8], .deliver 11, .deliver 13]

theorem secondScript_commits :
    ((boot ["a", "b", "c"] 0).exec (commitScript ++ secondScript)).map (fun c => ((c.nodes "a").commitIndex,
      (c.nodes "a").log.termAt 2, (c.nodes "b").log.entryAt 2)) = some (2, some 1, some ⟨2, 1, [8]⟩) := by
  decide +kernel

theorem entry_accepted_once_second :
    ∃! turn, (boot ["a", "b", "c"] 0).Accepts (commitScript ++ secondScript) turn 2 1 [8] := by
  obtain ⟨c, done, shape⟩ := Option.map_eq_some_iff.mp secondScript_commits
  simp only [Prod.mk.injEq] at shape
  have members := (exec_runs done).members
  exact entry_accepted_once (boot_bootstrapped 0 (by decide) (by decide)) done (by rw [members]; decide) shape.2.2

/-- What a caller knows to be committed stands before every write that is accepted from then on and gets through. -/
theorem committed_before_accepted {first c mid next later : Cluster} (boot : first.Bootstrapped) (start : Runs first c)
    {observer : String} (watched : observer ∈ c.members) (between : Runs c mid) {chief : String} {command : Command}
    {position term : Nat} (accepted : ((mid.nodes chief).propose command).2.1 = .ok (position, term))
    (taken : mid.step (.propose chief command) = some next) (onward : Runs next later) {reader : String}
    (known : reader ∈ later.members) (reached : position ≤ (later.nodes reader).commitIndex)
    (same : (later.nodes reader).log.termAt position = some term) :
    (c.nodes observer).commitIndex < position := by
  obtain ⟨old, _, describedOld⟩ := start.described boot.described
  obtain ⟨record, grownOld, described⟩ := between.described describedOld
  obtain ⟨larger, grown, describedNext⟩ := step_described record mid next described ⟨_, taken⟩
  obtain ⟨largest, grownLast, describedLater⟩ := onward.described describedNext
  have free := (Makes.extends described ⟨rfl, accepted⟩ taken describedNext).1
  by_contra inside
  rw [Nat.not_lt] at inside
  have members : later.members = c.members := by
    rw [onward.members, (step_nodes taken).1, between.members]
  obtain ⟨value, early⟩ := ((describedOld.nodes observer watched).2.settled.reached.lower inside).anchored
    (Nat.zero_lt_of_lt free)
  have held := early.mono grownOld
  have late := describedLater.committed_anchored known reached same
  have sound := described.sound
  have soundLater := describedLater.sound
  rw [members] at late soundLater
  rw [between.members] at sound
  -- The entry agreed on at the place is the one accepted later, so its leader held it already.
  have owner := Anchored.unique soundLater (held.mono (grown.trans grownLast)) late
  rw [owner] at held
  have reach := termAt_le_length (held.origin sound).1
  omega

theorem committed_before_accepted_second :
    ∃ c next later, (boot ["a", "b", "c"] 0).exec commitScript = some c ∧ c.step (.propose "a" [8]) = some next ∧
      next.exec [.deliver 11, .deliver 13] = some later ∧ (later.nodes "a").commitIndex = 2 ∧
      (c.nodes "a").commitIndex < 2 := by
  have seen : (((boot ["a", "b", "c"] 0).exec commitScript).bind fun c => (c.step (.propose "a" [8])).bind fun next =>
      (next.exec [.deliver 11, .deliver 13]).map fun later => decide (((c.nodes "a").propose [8]).2.1 = .ok (2, 1) ∧
        (later.nodes "a").commitIndex = 2 ∧ (later.nodes "a").log.termAt 2 = some 1 ∧ "a" ∈ c.members ∧
        "a" ∈ later.members)) = some true := by
    decide +kernel
  simp only [Option.bind_eq_some_iff, Option.map_eq_some_iff, decide_eq_true_eq] at seen
  obtain ⟨c, start, next, taken, later, onward, accepted, commit, held, watched, known⟩ := seen
  refine ⟨c, next, later, start, taken, onward, commit, ?_⟩
  exact committed_before_accepted (boot_bootstrapped 0 (by decide) (by decide)) (exec_runs start) watched
    Relation.ReflTransGen.refl accepted taken (exec_runs onward) known commit.ge held

end Cluster

end ForgeDB.Raft
